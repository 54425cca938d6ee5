/-
  Switchboard.Proofs.World.Dismissal — what a withdrawal does, and what it leaves alone.

  The owner withdraws a registration that is active, with a sink and a factory that call nothing.
  Then the withdrawal returns true, and all that happens is known beforehand (`dismissal`): the
  sink is told once, when the ledger is as it was; then all entries made for the registration go
  at once, and the factory gets what they had cached when the registration is invalid
  (`InDismissal`). Afterwards the registry lists and counts what it did before, without that
  registration, and nothing else changed (`unregister_ensures`).
-/

import Switchboard.Proofs.World.Ensures
import Switchboard.Proofs.World.Entries
import Switchboard.Proofs.World.Index
import Switchboard.World.Diagnostic

namespace Switchboard

variable {α : Type}

def warnings (w : World α) (os : List (Occurrence α)) : List Note :=
  (os.filterMap (Occurrence.note? w)).filter (·.level == .warn)

/-- The registry `g'` is `g` without the registration `h`: neither listed nor used. -/
structure Registry.Without (g : Registry α) (h : Handle) (g' : Registry α) : Prop where
  config : g'.config = g.config
  hasSink : g'.hasSink = g.hasSink
  owned : ∀ b, g'.owned b = (g.owned b).filter (· != h)
  hooks : g'.hooks = g.hooks.filter (· != h)
  usages : ∀ b, g'.ledger.usages b = (g.ledger.usages b).filter (·.reference.target != h)
  nextService : g'.nextService = g.nextService
  references : g'.references = g.references

namespace World

variable {w : World α} {g : Registry α} {r : Nat} {h : Handle} {x : Registration α} {os : List (Occurrence α)} {c : Config}
  {hasSink : Bool} {before : List (Move α)}

/-- How many uses a withdrawal takes back. -/
def reclaimed (g : Registry α) (h : Handle) : Nat := ((g.ledger.usesOf h).map (·.2.count)).sum

def returnable (g : Registry α) (h : Handle) (source : Source α) : List (BundleId × α) :=
  if source.isFactory then (g.ledger.usesOf h).filterMap fun e => e.2.object.map (e.1, ·) else []

def dismissal (g : Registry α) (h : Handle) (x : Registration α) : List (Occurrence α) :=
  [Occurrence.called 0 (.unregister x.bundle h), .retired 0 h] ++
    (if g.hasSink then
      [Occurrence.asked (.event 0 .unregistering h none), .answered (.event 0 .unregistering h none) .done] else []) ++
    [Occurrence.drained 0 h (reclaimed g h)] ++ (returnable g h x.source).flatMap (goesBack h) ++
    [Occurrence.withdrawn 0 h, .returned (.flag true)]

/-- In between, the client is told of the event with all entries as they were in `g`, or it gets an
    object back from a registration that is invalid. -/
inductive InDismissal (g : Registry α) (h : Handle) (w : World α) : Prop
  | busy (hask : w.pending? = none)
  | telling {g' : Registry α} (hask : w.pending? = some (.event 0 .unregistering h none)) (hsole : w.registries = #[g'])
      (hledger : g'.ledger = g.ledger)
  | giving {b : BundleId} {o : α} (hask : w.pending? = some (.takeBack h b o)) (hinvalid : w.phase? h = some .invalid)

structure Dismissed (w : World α) (g : Registry α) (h : Handle) (x : Registration α) (out : Outcome α) : Prop where
  told : out.2 = dismissal g h x
  warned : warnings out.1 out.2 = if reclaimed g h = 0 then [] else
    [⟨.warn, "reclaimed usage not released before unregistration",
      [("service", toString x.id), ("reclaimed", toString (reclaimed g h))]⟩]
  invalid : out.1.registration? h = some { x with phase := .invalid }
  others : ∀ t, t ≠ h → out.1.registration? t = w.registration? t
  registry : ∃ g', out.1.registries = #[g'] ∧ g.Without h g'
  stack : out.1.stack = w.stack

/-! ## The two changes of a withdrawal -/

def retired (w : World α) (r : Nat) (g : Registry α) (h : Handle) (b : BundleId) : World α :=
  (w.setPhase h .unregistering).setRegistry r (g.unlist b h)

def drained (w : World α) (r : Nat) (g : Registry α) (h : Handle) : World α :=
  (w.setRegistry r { g with ledger := (g.ledger.drain h).ledger }).setPhase h .invalid

theorem isFactory_eq (hx : w.registration? h = some x) : w.isFactory h = x.source.isFactory := by
  rw [isFactory, hx, Option.any_some]

theorem registration?_retired (hx : w.registration? h = some x) (t : Handle) :
    (w.retired r g h x.bundle).registration? t =
      if t = h then some { x with phase := .unregistering } else w.registration? t := by
  show (w.setPhase h .unregistering).registration? t = _
  rw [registration?_setPhase]
  split
  case isTrue ht => rw [ht, hx, Option.map_some]
  case isFalse => rfl

theorem registration?_drained (hx : w.registration? h = some x) (t : Handle) :
    (w.drained r g h).registration? t = if t = h then some { x with phase := .invalid } else w.registration? t := by
  show ((w.setRegistry r _).setPhase h .invalid).registration? t = _
  rw [registration?_setPhase]
  show (if t = h then (w.registration? t).map _ else w.registration? t) = _
  split
  case isTrue ht => rw [ht, hx, Option.map_some]
  case isFalse => rfl

/-- What the two leave of the registry. -/
theorem without_of (hst : Standing w g) (hi : w.Indexes 0 g) (hx : w.registration? h = some x) :
    g.Without h { g.unlist x.bundle h with ledger := (g.ledger.drain h).ledger } where
  config := rfl
  hasSink := rfl
  owned b := by
    show (g.unlist x.bundle h).owned b = _
    rw [Registry.owned_unlist hst.sound.index]
    split
    case isTrue hb => rw [hb]
    case isFalse hb =>
      -- No other bundle lists it.
      refine (List.filter_eq_self.mpr fun t ht => ?_).symm
      obtain ⟨y, hy, -, hbundle, -⟩ := (mem_owned hi).mp ht
      rw [bne_iff_ne]
      intro heq
      rw [heq, hx] at hy
      rw [← Option.some.inj hy] at hbundle
      exact hb hbundle.symm
  hooks := rfl
  usages b := Ledger.usages_drain hst.sound.ledger h b
  nextService := rfl
  references := rfl

/-! ## How it goes -/

/-- A withdrawal whose sink knows drains, gives back and returns. -/
theorem arrives_draining {v : World α} {k : Registry α} {answers : Answer α → Prop} {I : World α → Prop}
    {Q : Outcome α → Prop} (hx : v.registration? h = some x) (hat : v.registries[r]? = some k)
    (hturn : v.isClientsTurn = true) (hdone : answers .done)
    (hbusy : ∀ held, I { v with stack := .draining r h :: v.stack, held := held })
    (hgiving : ∀ held due, I { v.drained r k h with stack := .releasing r h due .withdrawn :: v.stack, held := held })
    (hend : ∀ held, Q ({ v.drained r k h with held := held }, os ++ [.drained r h (k.ledger.drain h).uses] ++
      (if x.source.isFactory then (k.ledger.drain h).objects else []).flatMap (goesBack h) ++
      ([.withdrawn r h] ++ [.returned (.flag true)]))) :
    Arrives answers v.stack.length I Q ({ v with stack := .draining r h :: v.stack }, os) := by
  refine arrives_advance (Nat.le_refl _) rfl hbusy fun held => ?_
  refine ⟨World.drain { v with held := held } r k h, by simp only [advance?, hat, Option.map_some], ?_⟩
  have hgone : (v.drained r k h).registration? h = some { x with phase := .invalid } := by
    rw [registration?_drained hx, if_pos rfl]
  have hdue : ∀ held, dueTo { v.drained r k h with held := held } h (k.ledger.drain h).objects =
      if x.source.isFactory then (k.ledger.drain h).objects else [] := by
    intro held
    show (if (v.drained r k h).isFactory h then _ else _) = _
    rw [isFactory_eq hgone]
  have hrelease : Arrives answers v.stack.length I Q (after (os ++ [.drained r h (k.ledger.drain h).uses])
      (World.release { v.drained r k h with held := held } r h (k.ledger.drain h).objects .withdrawn)) := by
    refine arrives_release hdone (Nat.le_refl _) hgiving fun held' => ?_
    have hturn' : World.isClientsTurn { v.drained r k h with held := held' } = true := hturn
    show Arrives _ _ _ _ (after _ (after [.withdrawn r h] (World.finish _ (.flag true))))
    rw [after_after]
    refine arrives_finish hturn' (by simp) ?_
    rw [hdue, List.append_assoc]
    exact hend held'
  rwa [← after_after] at hrelease

/-- Before that the sink, if there is one, is told. -/
theorem arrives_withdrawal {v : World α} {hasSink : Bool} {answers : Answer α → Prop} {I : World α → Prop}
    {Q : Outcome α → Prop} (hdone : answers .done)
    (htelling : ∀ held, I { v with stack := .withdrawing r h :: v.stack, held := held })
    (hdrain : ∀ held, Arrives answers v.stack.length I Q ({ v with stack := .draining r h :: v.stack, held := held },
      os ++ if hasSink then [.asked (.event r .unregistering h none),
        .answered (.event r .unregistering h none) .done] else [])) :
    Arrives answers v.stack.length I Q (after os (v.place (if hasSink then .withdrawing r h else .draining r h))) := by
  cases hasSink with
  | false => exact hdrain v.held
  | true =>
    refine arrives_answer (q := .event r .unregistering h none) (Nat.le_refl _) rfl htelling
      (fun held => ⟨.done, hdone, rfl⟩) fun held a out _ hout => ?_
    cases a with
    | done =>
      obtain rfl := Option.some.inj hout
      have hdrain := hdrain held
      rwa [if_pos rfl, List.append_cons] at hdrain
    | verdict => cases hout
    | supplied => cases hout

theorem notes_goesBack (w : World α) (h : Handle) (due : List (BundleId × α)) :
    (due.flatMap (goesBack h)).filterMap (Occurrence.note? w) = [] := by
  rw [List.filterMap_flatMap]
  exact List.flatMap_eq_nil_iff.mpr fun d _ => rfl

/-- Only uses that were taken back are warned of. -/
theorem warnings_dismissal (hx : w.registration? h = some { x with phase := .invalid }) :
    warnings w (dismissal g h x) = if reclaimed g h = 0 then [] else
      [⟨.warn, "reclaimed usage not released before unregistration",
        [("service", toString x.id), ("reclaimed", toString (reclaimed g h))]⟩] := by
  have hid : w.serviceId h = x.id := by
    rw [serviceId, hx]
    rfl
  have hevent : (if g.hasSink then [.asked (.event 0 .unregistering h none),
      .answered (.event 0 .unregistering h none) .done] else [] : List (Occurrence α)).filterMap
      (Occurrence.note? w) = [] := by
    split <;> rfl
  have hnotes : (dismissal g h x).filterMap (Occurrence.note? w) =
      ((Occurrence.drained 0 h (reclaimed g h) : Occurrence α).note? w).toList ++
        [⟨.debug, "service unregistered", [("service", toString x.id), ("bundle", x.bundle.render)]⟩] := by
    have hwithdrawn : [.withdrawn 0 h, .returned (.flag true)].filterMap (Occurrence.note? w) =
        [⟨.debug, "service unregistered", [("service", toString x.id), ("bundle", x.bundle.render)]⟩] := by
      rw [List.filterMap_cons_some (by rw [Occurrence.note?, hx]; rfl)]
      rfl
    have hdrained : [Occurrence.drained 0 h (reclaimed g h)].filterMap (Occurrence.note? w) =
        ((Occurrence.drained 0 h (reclaimed g h) : Occurrence α).note? w).toList := by
      cases hnote : (Occurrence.drained 0 h (reclaimed g h) : Occurrence α).note? w with
      | none => exact List.filterMap_cons_none hnote
      | some n => exact List.filterMap_cons_some hnote
    rw [dismissal, List.filterMap_append, List.filterMap_append, List.filterMap_append, List.filterMap_append,
      notes_goesBack, hevent, hwithdrawn, hdrained, List.append_nil]
    rfl
  rw [warnings, hnotes, Occurrence.note?, hid]
  by_cases hzero : reclaimed g h = 0
  · rw [if_pos hzero, if_pos hzero]
    rfl
  · rw [if_neg hzero, if_neg hzero]
    rfl

/-- It comes to the end it should. -/
theorem dismissed_of (hst : Standing w g) (hi : w.Indexes 0 g) (hx : w.registration? h = some x) (held : List Handle) :
    Dismissed w g h x
      ({ (w.retired 0 g h x.bundle).drained 0 (g.unlist x.bundle h) h with held := held }, dismissal g h x) := by
  have hleft : (w.retired 0 g h x.bundle).registration? h = some { x with phase := .unregistering } := by
    rw [registration?_retired hx, if_pos rfl]
  have hgone : ∀ t, ((w.retired 0 g h x.bundle).drained 0 (g.unlist x.bundle h) h).registration? t =
      if t = h then some { x with phase := .invalid } else w.registration? t := by
    intro t
    rw [registration?_drained hleft, registration?_retired hx]
    split <;> rfl
  have hinvalid : World.registration? { (w.retired 0 g h x.bundle).drained 0 (g.unlist x.bundle h) h with held := held } h =
      some { x with phase := .invalid } := (hgone h).trans (if_pos rfl)
  have hretired : (w.retired 0 g h x.bundle).registries = #[g.unlist x.bundle h] := sole_set hst.sole _
  refine ⟨rfl, warnings_dismissal hinvalid, hinvalid, fun t ht => (hgone t).trans (if_neg ht),
    ⟨_, sole_set hretired _, without_of hst hi hx⟩, rfl⟩

/-- In its own registry, a registration that is active leaves the indexes at once. -/
theorem unregister_of_active (hx : w.registration? h = some x) (hindexed : g.isIndexed x.bundle h = true)
    (hactive : w.isActive h = true) : w.unregister r g x.bundle h = after [.retired r h]
      ((w.retired r g h x.bundle).place (if g.hasSink then .withdrawing r h else .draining r h)) := by
  have hretire : w.retire? r g h = some (w.retired r g h x.bundle) := by
    simp only [retire?, hx, hindexed, hactive, Bool.and_self, if_true]
    rfl
  simp only [unregister, hx, beq_self_eq_true, if_true, withdraw, hretire]
  rfl

/-- While objects go back, the registration is invalid. -/
theorem inDismissal_releasing {v : World α} {k : Registry α} (hx : v.registration? h = some x) (held : List Handle)
    (due : List (BundleId × α)) :
    InDismissal g h { v.drained r k h with stack := .releasing r h due .withdrawn :: v.stack, held := held } := by
  cases due with
  | nil => exact .busy rfl
  | cons d due =>
    refine .giving rfl ?_
    show (v.drained r k h).phase? h = _
    rw [phase?, registration?_drained hx, if_pos rfl]
    rfl

/-- A withdrawal that has started comes to the end it should. -/
theorem arrives_dismissed (hst : Standing w g) (hi : w.Indexes 0 g) (hx : w.registration? h = some x)
    (hpos : ∀ e ∈ g.ledger.usesOf h, 0 < e.2.count) (hturn : w.isClientsTurn = true) (held : List Handle) :
    Arrives (fun _ => True) w.stack.length (InDismissal g h) (Dismissed w g h x)
      ({ w.retired 0 g h x.bundle with stack := .draining 0 h :: w.stack, held := held },
        [.called 0 (.unregister x.bundle h), .retired 0 h] ++
          (if g.hasSink then [.asked (.event 0 .unregistering h none),
            .answered (.event 0 .unregistering h none) .done] else [])) := by
  have hat : (w.retired 0 g h x.bundle).registries[0]? = some (g.unlist x.bundle h) := by
    rw [show (w.retired 0 g h x.bundle).registries = #[g.unlist x.bundle h] from sole_set hst.sole _]
    rfl
  have hleft : (w.retired 0 g h x.bundle).registration? h = some { x with phase := .unregistering } := by
    rw [registration?_retired hx, if_pos rfl]
  refine arrives_draining (v := { w.retired 0 g h x.bundle with held := held }) (x := { x with phase := .unregistering })
    hleft hat hturn trivial (fun held' => .busy rfl) (inDismissal_releasing hleft) fun held' => ?_
  obtain ⟨huses, hobjects⟩ := Ledger.drain_usesOf hst.sound.ledger hpos
  have hreturnable : returnable g h x.source = if x.source.isFactory then (g.ledger.drain h).objects else [] := by
    rw [hobjects]
    rfl
  have hend := dismissed_of hst hi hx held'
  rw [dismissal, reclaimed, ← huses, hreturnable] at hend
  exact hend

/-- Where the owner withdraws a registration that is active, and neither the sink nor the factory
    calls back in, all uses of it go and nothing else changes. -/
theorem unregister_ensures (hrun : (start [(c, hasSink)]).run before = some (w, os)) (hturn : w.isClientsTurn = true)
    (hx : w.registration? h = some x) (hactive : x.phase = .active) : ∃ g, w.registries = #[g] ∧
      w.Ensures (fun _ => True) 0 (.unregister x.bundle h) (InDismissal g h) (Dismissed w g h x) := by
  obtain ⟨g, hst, hentries⟩ := entries_run before _ hrun
  have hst' : Standing (World.onto w none) g := hst
  have hat : w.registries[0]? = some g := by
    rw [show w.registries = #[g] from hst.sole]
    rfl
  have hi : w.Indexes 0 g := (tallied_run hrun).catalogued.indexes 0 g hat
  have hw : w.isActive h = true := isActive_iff.mpr (by rw [phase?_of_some hx, hactive])
  have hvalid : w.isValid h = true := isValid_iff.mpr (Or.inl (isActive_iff.mp hw))
  have hindexed : g.isIndexed x.bundle h = true := (hst.listed h x hx).mpr hactive
  have hpos : ∀ e ∈ g.ledger.usesOf h, 0 < e.2.count := by
    intro e he
    have hmem := (Ledger.mem_entries hst.sound.ledger).mp (List.mem_filter.mp he).1
    exact (hentries e.1 _ e.2 (Ledger.usage?_of_mem hst.sound.ledger hmem)).1
  refine ⟨g, hst.sole, _, play_call hturn (hst'.isAlive (by simp) hvalid) hat, ?_⟩
  show Arrives _ _ _ _ (after _ (w.unregister 0 g x.bundle h))
  rw [unregister_of_active hx hindexed hw, after_after]
  have hsole : (w.retired 0 g h x.bundle).registries = #[g.unlist x.bundle h] := sole_set hst.sole _
  exact arrives_withdrawal (v := w.retired 0 g h x.bundle) trivial (fun held => .telling rfl hsole rfl)
    (arrives_dismissed hst hi hx hpos hturn)

/-- Two bundles use what a factory makes, one of them twice, and one uses another service too. -/
def usedByTwo : List (Move Nat) :=
  [.call 0 (.register 7 "a" .factory none), .answer .done, .call 0 (.register 7 "b" (.object 5) none), .answer .done,
   .call 0 (.findOne "a"), .call 0 (.findOne "b"),
   .call 0 (.get 9 ⟨1, 1, 0⟩), .answer (.supplied (some 20)), .tick, .tick, .call 0 (.get 9 ⟨2, 2, 1⟩), .tick, .tick,
   .call 0 (.get 8 ⟨1, 1, 0⟩), .answer (.supplied (some 21)), .tick, .tick, .call 0 (.get 9 ⟨1, 1, 0⟩), .tick, .tick]

theorem unregister_ensures_usedByTwo : ∃ w os x g, (start [(Config.standard, true)]).run usedByTwo = some (w, os) ∧
    w.registration? 0 = some x ∧ w.registries = #[g] ∧ reclaimed g 0 = 3 ∧
    w.Ensures (fun _ => True) 0 (.unregister x.bundle 0) (InDismissal g 0) (Dismissed w g 0 x) := by
  have hany : ((start [(Config.standard, true)]).run usedByTwo).any (fun out => out.1.isClientsTurn &&
      (out.1.registration? 0).any (fun x => x.phase == .active) &&
      out.1.registries.all fun g => reclaimed g 0 == 3) = true := by decide +kernel
  obtain ⟨⟨w, os⟩, hrun, hw⟩ := (Option.any_eq_true _ _).mp hany
  obtain ⟨hw, huses⟩ := Bool.and_eq_true_iff.mp hw
  obtain ⟨hturn, hreg⟩ := Bool.and_eq_true_iff.mp hw
  obtain ⟨x, hx, hactive⟩ := (Option.any_eq_true _ _).mp hreg
  obtain ⟨g, hg, hensures⟩ := unregister_ensures hrun hturn hx (beq_iff_eq.mp hactive)
  refine ⟨w, os, x, g, hrun, hx, hg, ?_, hensures⟩
  have huses : w.registries.all (fun g => reclaimed g 0 == 3) = true := huses
  rw [hg] at huses
  simpa using huses

end World

end Switchboard
