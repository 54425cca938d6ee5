/-
  Switchboard.Proofs.World.Sharing — who shares an object.

  The gets of one pair share the object of its entry, and unless a call back interferes, a factory
  makes one object for the entry, which it gets back when the entry goes. What was published as an
  object all gets share, whatever their pair, and its publisher is never called (`GivesOwn`), for only
  factories are called (`CallsFactories`). All of it together is `instance_shared`.
-/

import Switchboard.Proofs.World.Entries
import Switchboard.Proofs.World.Making

namespace Switchboard

variable {α : Type} {b : BundleId} {ref : Reference}

def Question.factory? : Question α → Option Handle
  | supply h _ | takeBack h _ _ => some h
  | _ => none

def Occurrence.factory? : Occurrence α → Option Handle
  | asked q => q.factory?
  | answered (.supply h _) _ => some h
  | _ => none

theorem Occurrence.matters_of_factory? {o : Occurrence α} {h : Handle} (ho : o.factory? = some h) : o.matters = true := by
  cases o with
  | asked q => cases q <;> first | rfl | cases ho
  | answered q a => cases q <;> first | rfl | cases ho
  | _ => cases ho

namespace World

variable {w v : World α} {g g' : Registry α} {top : Option (Frame α)} {out : Outcome α} {os : List (Occurrence α)}
  {ms before : List (Move α)} {m : Move α} {h : Handle} {r : Nat} {f : Frame α} {x y : α}

/-! ## Only factories are called -/

def Calls (w : World α) (f : Frame α) : Prop := ∀ q ∈ f.question?, ∀ h ∈ q.factory?, w.isFactory h = true

structure CallsFactories (w : World α) (os : List (Occurrence α)) : Prop where
  waits : ∀ f ∈ w.stack, w.Calls f
  told : ∀ o ∈ os, ∀ h ∈ o.factory?, w.isFactory h = true

theorem calls_of_aside (hf : f.isAside) : w.Calls f := by
  intro q hq h hh
  cases f with
  | releasing r t due e =>
    cases due with
    | nil => cases hq
    | cons d due => cases hf
  | announcing =>
    obtain rfl := Option.some.inj hq
    cases hh
  | reporting =>
    obtain rfl := Option.some.inj hq
    cases hh
  | filtering =>
    obtain rfl := Option.some.inj hq
    cases hh
  | ungetting => cases hq
  | unregistering => cases hq
  | withdrawing => cases hf
  | draining => cases hf
  | resolving => cases hf
  | settling => cases hf

theorem calls_of_dueTo (due : List (BundleId × α)) (e : Ending α) : v.Calls (.releasing r h (v.dueTo h due) e) := by
  intro q hq t ht
  unfold dueTo at hq
  split at hq
  case isTrue hfactory =>
    cases due with
    | nil => cases hq
    | cons d due =>
      obtain rfl := Option.some.inj hq
      obtain rfl := Option.some.inj ht
      exact hfactory
  case isFalse => cases hq

theorem calls_of_fetch {z : Registration α} (hz : v.registration? ref.target = some z) (cached : Option α) :
    v.Calls (fetch r b ref cached z.source) := by
  intro q hq t ht
  unfold fetch at hq
  split at hq
  · cases hq
  · cases hq
  · rename_i hsource
    obtain rfl := Option.some.inj hq
    obtain rfl := Option.some.inj ht
    rw [isFactory, hz, Option.any_some, hsource]
    rfl

/-- What is new on the stack calls factories if it did before the step, and what is told then is about those. -/
theorem CallsFactories.next (hc : CallsFactories (v.onto top) os) (hs : Step v top out) {p : List (Frame α)}
    (hstack : out.1.stack = p ++ v.stack) (hp : ∀ k ∈ p, v.Calls k)
    (htold : ∀ o ∈ gist out.2, ∀ h ∈ o.factory?, v.isFactory h = true) : CallsFactories out.1 (os ++ out.2) := by
  refine ⟨fun f hf q hq h hh => isFactory_step hs ?_, fun o ho h hh => isFactory_step hs ?_⟩
  · rw [hstack] at hf
    rcases List.mem_append.mp hf with hf | hf
    · exact hp f hf q hq h hh
    · exact hc.waits f (List.mem_append_right _ hf) q hq h hh
  · rcases List.mem_append.mp ho with ho | ho
    · exact hc.told o ho h hh
    · exact htold o (List.mem_filter.mpr ⟨ho, Occurrence.matters_of_factory? hh⟩) h hh

theorem told_of_asks (hf : v.Calls f) : ∀ o ∈ gist f.asks, ∀ h ∈ o.factory?, v.isFactory h = true := by
  intro o ho h hh
  obtain ⟨q, hq, rfl⟩ := List.mem_map.mp (List.mem_filter.mp ho).1
  exact hf q (Option.mem_toList.mp hq) h hh

/-- The step tells of one thing, which calls no factory, and of what a frame asks. -/
theorem told_of_head {o : Occurrence α} (hos : gist os = o :: gist f.asks) (ho : o.factory? = none) (hf : v.Calls f) :
    ∀ o ∈ gist os, ∀ h ∈ o.factory?, v.isFactory h = true := by
  intro t ht h hh
  rw [hos] at ht
  rcases List.mem_cons.mp ht with rfl | ht
  · cases ho.symm.trans hh
  · exact told_of_asks hf t ht h hh

theorem told_of_single {o : Occurrence α} (hos : gist os = [o]) (ho : o.factory? = none) :
    ∀ o ∈ gist os, ∀ h ∈ o.factory?, v.isFactory h = true := by
  intro t ht h hh
  rw [hos] at ht
  rw [List.mem_singleton.mp ht] at hh
  cases ho.symm.trans hh

theorem callsFactories_step (hc : CallsFactories (v.onto top) os) (hs : Step v top out) :
    CallsFactories out.1 (os ++ out.2) := by
  have hstep := hs
  have hnone : ∀ {os' : List (Occurrence α)}, gist os' = [] → ∀ o ∈ gist os', ∀ h ∈ o.factory?, v.isFactory h = true := by
    intro os' hos o ho
    rw [hos] at ho
    cases ho
  have haside : ∀ {p : Option (Frame α)}, (∀ k ∈ p, k.isAside) → ∀ k ∈ p.toList, v.Calls k :=
    fun hp k hk => calls_of_aside (hp k (Option.mem_toList.mp hk))
  have hloop : ∀ {p : Option (Frame α)}, v.Under top p → ∀ k ∈ p.toList, v.Calls k :=
    fun hp => haside fun k hk => Frame.aside_of_loop (hp k hk).1
  have hone : ∀ {k : Frame α}, v.Calls k → ∀ k' ∈ [k], v.Calls k' := by
    intro k hk k' hk'
    rw [List.mem_singleton.mp hk']
    exact hk
  cases hs with
  | idle htop hi =>
    obtain ⟨p, hp, hq⟩ := hi.stack
    exact hc.next hstep hp (haside fun k hk => (hq k hk).1) (hnone hi.quiet)
  | publish _ _ _ _ _ _ hf hos =>
    refine hc.next hstep rfl (haside fun k hk => ?_) (hnone hos)
    rw [hf k hk]
    rfl
  | @retire _ f r g h x _ htop hf _ _ _ _ hos =>
    have hfirst : v.Calls (if g.hasSink then .withdrawing r h else .draining r h) := by
      intro q hq t ht
      split at hq
      · obtain rfl := Option.some.inj hq
        cases ht
      · cases hq
    exact hc.next hstep (p := _ :: f.toList) rfl (List.forall_mem_cons.mpr ⟨hfirst, hloop hf⟩) (told_of_single hos rfl)
  | notified hos => exact hc.next hstep (p := [_]) rfl (hone fun q hq => by cases hq) (hnone hos)
  | drain f hg hf hos =>
    have hcalls : v.Calls f := by
      rw [hf]
      exact calls_of_dueTo _ _
    exact hc.next hstep (p := [f]) rfl (hone hcalls) (told_of_head hos rfl hcalls)
  | acquire f hg hknown hx hf hos =>
    have hcalls : v.Calls f := by
      rw [hf]
      exact calls_of_fetch (behind?_eq_some.mp hx).2 _
    exact hc.next hstep (p := [f]) rfl (hone hcalls) (told_of_head hos rfl hcalls)
  | @supplied r h b ref _ o hos =>
    refine hc.next hstep (p := [_]) rfl (hone fun q hq => by cases hq) fun t ht k hk => ?_
    rw [hos] at ht
    obtain rfl := List.mem_singleton.mp ht
    obtain rfl := Option.some.inj hk
    exact hc.waits _ (List.mem_cons_self ..) _ rfl h rfl
  | settle e f hg he hf hos =>
    have hcalls : v.Calls f := by
      rw [hf]
      exact calls_of_dueTo _ _
    exact hc.next hstep (p := [f]) rfl (hone hcalls) (told_of_head hos rfl hcalls)
  | decrement htop hf hg hknown hrel hos =>
    exact hc.next hstep rfl (hloop hf) (told_of_single hos rfl)
  | @flush _ f r g b ref cached ledger _ k htop hf hg hknown hrel hk hos =>
    -- Only what a factory made is handed back.
    have hcalls : ∀ k' ∈ k, v.Calls k' := by
      intro k' hk' q hq t ht
      rw [hk, Option.mem_def, Option.map_eq_some_iff] at hk'
      obtain ⟨o, ho, rfl⟩ := hk'
      obtain rfl := Option.some.inj hq
      obtain rfl := Option.some.inj ht
      exact factory_of_filter ho
    refine hc.next hstep (p := k.toList ++ f.toList) (List.append_assoc ..).symm ?_ ?_
    · refine List.forall_mem_append.mpr ⟨fun k' hk' => ?_, hloop hf⟩
      exact hcalls k' (Option.mem_toList.mp hk')
    · cases k with
      | none => exact told_of_single hos rfl
      | some k =>
        rw [Option.toList_some, List.flatMap_singleton] at hos
        exact told_of_head hos rfl (hcalls k rfl)
  | @handed r h p due e _ hos =>
    have hcalls : v.Calls (.releasing r h due e) := by
      intro q hq t ht
      have hwaits := hc.waits (.releasing r h (p :: due) e) (List.mem_cons_self ..) _ rfl h rfl
      cases due with
      | nil => cases hq
      | cons d due =>
        obtain rfl := Option.some.inj hq
        obtain rfl := Option.some.inj ht
        exact hwaits
    refine hc.next hstep (p := [_]) rfl (hone hcalls) fun t ht => ?_
    rw [hos] at ht
    exact told_of_asks hcalls t ht

theorem callsFactories_run {setups : List (Config × Bool)} (hrun : (start setups).run ms = some out) :
    CallsFactories out.1 out.2 := by
  have hstart : CallsFactories (start setups : World α) [] := ⟨fun f hf => (by cases hf), fun o ho => (by cases ho)⟩
  refine run_induction (P := CallsFactories) ?_ ms _ [] out hstart hrun
  intro w os m out hc hplay
  obtain ⟨v, top, rfl, -, hs⟩ := play_step hplay
  exact callsFactories_step hc hs

/-! ## What was published as an object -/

def PublishedAs (w : World α) (h : Handle) (x : α) : Prop := ∃ z, w.registration? h = some z ∧ z.source = .object x

/-- All that the registration gives is the object it was published with, and nothing calls it. -/
structure GivesOwn (w : World α) (os : List (Occurrence α)) (h : Handle) (x : α) : Prop where
  granted : ∀ r b q y, .decided r b q (some y) ∈ os → q.target = h → y = x
  /-- A `get` that starts now returns it, too. -/
  returned : ∀ r b q ms fin y, Returns w r (.get b q) ms fin (.object (some y)) → q.target = h → y = x
  uncalled : ∀ b, .asked (.supply h b) ∉ os ∧ ∀ y, .asked (.takeBack h b y) ∉ os

/-- What was decided for was supplied. -/
theorem decided_run {c : Config} {hasSink : Bool} (hrun : (start [(c, hasSink)]).run ms = some out) :
    ∃ g, Standing out.1 g ∧ ∀ r b q y, .decided r b q (some y) ∈ out.2 →
      g.knows q = true ∧ out.1.SuppliedVia out.2 r b q.id y := by
  have hall := run_induction (P := fun w os => Provided w os ∧ ∃ g, Standing w g ∧
    ∀ r b q y, .decided r b q (some y) ∈ os → g.knows q = true ∧ w.SuppliedVia os r b q.id y) ?_ ms _ [] out
    ⟨provided_start _, _, standing_start c hasSink, by simp⟩ hrun
  · exact hall.2
  rintro w os m out ⟨hp, g, hst, hdecided⟩ hplay
  obtain ⟨g', hst'⟩ := standing_play hst hplay
  obtain ⟨v, top, rfl, -, hs⟩ := play_step hplay
  refine ⟨provided_step hp hs, g', hst', fun r b q y hmem => ?_⟩
  rcases List.mem_append.mp hmem with hmem | hmem
  · obtain ⟨hknown, hvia⟩ := hdecided r b q y hmem
    exact ⟨knows_step hst hs hst' hknown, hvia.step hs⟩
  · obtain ⟨h, fresh, o, due, rfl, hstack⟩ := decided_of_step hs hmem
    have hknown := hst.refs _ (List.mem_cons_self ..) q (List.mem_singleton.mpr rfl)
    refine ⟨knows_step hst hs hst' hknown, SuppliedVia.step ?_ hs⟩
    cases hs with
    | idle htop => cases htop _ rfl
    | retire htop => cases htop _ rfl
    | decrement htop => cases htop _ rfl
    | flush _ htop => cases htop _ rfl
    | settle e f hg he hf =>
      have hl := hp.stocked _ _ hg
      have hat : (v.onto _).Backed os (.settling _ h b q fresh o) := hp.backed _ (List.mem_cons_self ..)
      have hkept := hl.settles (x := o) (fun y hy => by subst hy; exact hat) (settles_of_eq hl.sound he)
      subst hf
      obtain ⟨-, -, -, hending⟩ := Frame.releasing.inj (List.cons.inj hstack).1
      exact hkept.2 y (Ending.got.inj hending).2.2

theorem publishedAs_run (hrun : w.run ms = some out) (hx : w.PublishedAs h x) : out.1.PublishedAs h x := by
  obtain ⟨z, hz, hsource⟩ := hx
  obtain ⟨z', hz', horigin⟩ := origin_run hrun hz
  have hsame : z'.source = z.source := (congrArg Registration.source horigin :)
  exact ⟨z', hz', hsame.trans hsource⟩

theorem uncalled_of_object (hc : CallsFactories w os) (hx : w.PublishedAs h x) {o : Occurrence α} (ho : o ∈ os) :
    o.factory? ≠ some h := by
  intro hfactory
  obtain ⟨z, hz, hsource⟩ := hx
  have htrue := hc.told o ho h hfactory
  rw [isFactory, hz, Option.any_some, hsource] at htrue
  cases htrue

theorem granted_of_object {c : Config} {hasSink : Bool} (hrun : (start [(c, hasSink)]).run ms = some out)
    (hx : out.1.PublishedAs h x) {q : Reference} (hdecided : .decided r b q (some y) ∈ out.2) (hq : q.target = h) :
    y = x := by
  obtain ⟨g, hst, hall⟩ := decided_run hrun
  obtain ⟨hknown, q', hid, hacquired, hsup⟩ := hall r b q y hdecided
  obtain ⟨g', hst', hused⟩ := knows_of_acquired_run hrun
  obtain rfl := hst'.eq hst.sole
  obtain rfl := Registry.knows_unique (hused r b q' hacquired) hknown hid
  rw [hq] at hsup
  rcases hsup with ⟨z, hz, hsource⟩ | hmade
  · obtain ⟨z', hz', hsource'⟩ := hx
    obtain rfl := Option.some.inj (hz.symm.trans hz')
    exact Source.object.inj (hsource.symm.trans hsource')
  · exact absurd rfl (uncalled_of_object (callsFactories_run hrun) hx hmade)

theorem givesOwn_run {c : Config} {hasSink : Bool} (hrun : (start [(c, hasSink)]).run before = some (w, os))
    (hx : w.PublishedAs h x) : GivesOwn w os h x := by
  refine ⟨fun r b q y hdecided hq => granted_of_object hrun hx hdecided hq, ?_, fun b => ⟨fun hasked => ?_, fun y hasked => ?_⟩⟩
  · intro r b q ms fin y hret hq
    have hfin : (start [(c, hasSink)]).run (before ++ .call r (.get b q) :: ms) = some (fin.1, os ++ fin.2) :=
      run_trans hrun hret.run
    obtain ⟨os1, os2, hsplit, -, -⟩ := decided_of_returns (standing_run hrun) hret
    have hx' : fin.1.PublishedAs h x := publishedAs_run hret.run hx
    refine granted_of_object hfin hx' (r := r) (b := b) (q := q) ?_ hq
    simp [hsplit]
  · exact uncalled_of_object (callsFactories_run hrun) hx hasked rfl
  · exact uncalled_of_object (callsFactories_run hrun) hx hasked rfl

/-! ## Sharing -/

/-- As long as an entry is there, the gets of its pair share one object, also when several were made at
    once; unless a call back interferes, only one is made, and it goes back when the entry goes. What was
    published as an object all gets share at all times. -/
theorem instance_shared {c : Config} {hasSink : Bool} (hbefore : (start [(c, hasSink)]).run before = some (w, os))
    (hlife : Lifetime w b ref ms out) :
    SharesOne w b ref ms out ∧
      (w.isFactory ref.target = true → w.inFlight b ref = 0 → Undisturbed w b ref ms → MadeOnce w b ref ms out) ∧
      ∀ h x, out.1.PublishedAs h x → GivesOwn out.1 (os ++ out.2) h x := by
  have hst := standing_run hbefore
  have hrun : (start [(c, hasSink)]).run (before ++ ms) = some (out.1, os ++ out.2) := by
    rw [run_append, hbefore, Option.bind_some, hlife.run]
    rfl
  exact ⟨hlife.sharesOne hst, fun hfactory hidle hund => hlife.madeOnce hst hfactory hidle hund,
    fun h x hx => givesOwn_run hrun hx⟩

theorem lifetime_of_all (hrun : w.run ms = some out) (habsent : (w.booked? b ref).isNone = true)
    (hall : ms.inits.all (fun l => l.isEmpty ||
      (w.run l).all fun o => (o.1.booked? b ref).any fun u => decide (u.reference = ref)) = true) :
    Lifetime w b ref ms out := by
  refine ⟨hrun, Option.isNone_iff_eq_none.mp habsent, fun l hl hne o ho => ?_⟩
  have hone := List.all_eq_true.mp hall l ((List.mem_inits ..).mpr hl)
  rw [ho, Option.all_some] at hone
  rcases Bool.or_eq_true_iff.mp hone with hempty | hany
  · exact absurd (List.isEmpty_iff.mp hempty) hne
  · obtain ⟨u, hu, href⟩ := (Option.any_eq_true _ _).mp hany
    exact ⟨u, hu, of_decide_eq_true href⟩

theorem undisturbed_of_all (hall : (List.range ms.length).all (fun i => (w.run (ms.take i)).all fun mid =>
      (ms[i]?).all fun m => (mid.1.play m).all fun o =>
        decide (mid.1.inFlight b ref = 0) || o.2.all fun t => !t.disturbs b ref) = true) : Undisturbed w b ref ms := by
  intro l m hl mid o hmid hplay hin t ht
  have hlength := hl.length_le
  rw [List.length_append, List.length_singleton] at hlength
  have htake : ms.take l.length = l := by
    obtain ⟨l', rfl⟩ := hl
    simp
  have hat : ms[l.length]? = some m := by
    obtain ⟨l', rfl⟩ := hl
    simp
  have hone := List.all_eq_true.mp hall l.length (List.mem_range.mpr (by omega))
  simp only [htake, hmid, hat, hplay, Option.all_some, Bool.or_eq_true, decide_eq_true_eq, List.all_eq_true,
    Bool.not_eq_true'] at hone
  rcases hone with hzero | hquiet
  · omega
  · exact hquiet t ht

def madeTwice : List (Move Nat) := .call 0 (.get 9 ⟨1, 1, 0⟩) :: redundant

/-- One `get` has an object made, the next finds it, and one of the two uses is given back. -/
def madeForBoth : List (Move Nat) :=
  [.call 0 (.get 9 ⟨1, 1, 0⟩), .answer (.supplied (some 5)), .tick, .tick, .call 0 (.get 9 ⟨1, 1, 0⟩), .tick, .tick,
   .call 0 (.unget 9 ⟨1, 1, 0⟩)]

theorem instance_shared_madeTwice : ∃ w os out out', (start [(Config.standard, false)]).run published = some (w, os) ∧
    Lifetime w 9 ⟨1, 1, 0⟩ madeTwice out ∧ Lifetime w 9 ⟨1, 1, 0⟩ madeForBoth out' ∧
    SharesOne w 9 ⟨1, 1, 0⟩ madeTwice out ∧ MadeOnce w 9 ⟨1, 1, 0⟩ madeForBoth out' ∧
    ∀ h x, out.1.PublishedAs h x → GivesOwn out.1 (os ++ out.2) h x := by
  have hany : ((start [(Config.standard, false)]).run published).any (fun o =>
      (o.1.booked? 9 ⟨1, 1, 0⟩).isNone && o.1.isFactory 0 && decide (o.1.inFlight 9 ⟨1, 1, 0⟩ = 0) &&
      (o.1.run madeTwice).isSome && (o.1.run madeForBoth).isSome &&
      madeTwice.inits.all (fun l => l.isEmpty ||
        (o.1.run l).all fun z => (z.1.booked? 9 ⟨1, 1, 0⟩).any fun u => decide (u.reference = ⟨1, 1, 0⟩)) &&
      madeForBoth.inits.all (fun l => l.isEmpty ||
        (o.1.run l).all fun z => (z.1.booked? 9 ⟨1, 1, 0⟩).any fun u => decide (u.reference = ⟨1, 1, 0⟩)) &&
      (List.range madeForBoth.length).all fun i => (o.1.run (madeForBoth.take i)).all fun mid =>
        (madeForBoth[i]?).all fun m => (mid.1.play m).all fun z =>
          decide (mid.1.inFlight 9 ⟨1, 1, 0⟩ = 0) || z.2.all fun t => !t.disturbs 9 ⟨1, 1, 0⟩) = true := by
    decide +kernel
  obtain ⟨⟨w, os⟩, hbefore, hw⟩ := (Option.any_eq_true _ _).mp hany
  simp only [Bool.and_eq_true] at hw
  obtain ⟨⟨⟨⟨⟨⟨⟨habsent, hfactory⟩, hidle⟩, htwice⟩, hboth⟩, hlife⟩, hlife'⟩, hund⟩ := hw
  obtain ⟨out, hrun⟩ := Option.isSome_iff_exists.mp htwice
  obtain ⟨out', hrun'⟩ := Option.isSome_iff_exists.mp hboth
  have hlife := lifetime_of_all hrun habsent hlife
  have hlife' := lifetime_of_all hrun' habsent hlife'
  have hund := undisturbed_of_all hund
  obtain ⟨hshares, -, hown⟩ := instance_shared hbefore hlife
  obtain ⟨-, hmade, -⟩ := instance_shared hbefore hlife'
  exact ⟨w, os, out, out', hbefore, hlife, hlife', hshares, hmade hfactory (of_decide_eq_true hidle) hund, hown⟩

end World

end Switchboard
