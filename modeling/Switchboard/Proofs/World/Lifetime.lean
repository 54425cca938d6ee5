/-
  Switchboard.Proofs.World.Lifetime — one object for as long as an entry is there.

  An entry lives from the move that makes it to the one that takes it away (`Lifetime`). The object
  it caches is set at most once in that time, so all gets of its pair that decide for an object then
  are granted the same one, and return it (`SharesOne`). Which `get` an object came from does not
  matter, nor does when that `get` counted its use: the first fresh object that finds the entry empty
  is cached, and each later one gives way to it and goes back to the factory.

  A `get` returns what it decided, however much its call back of the factory brings about before it
  returns (`Decides.returned`).
-/

import Switchboard.Proofs.World.Pair
import Switchboard.Proofs.World.Validity

namespace Switchboard

variable {α : Type} {b : BundleId} {ref : Reference}

namespace World

variable {w v mid : World α} {g : Registry α} {top : Option (Frame α)} {out last : Outcome α} {os : List (Occurrence α)}
  {f : Frame α} {ms : List (Move α)} {m : Move α} {r : Nat} {x : Option α} {reply : Reply α}

/-! ## The decision of a `get` -/

/-- The call of a `get` comes to its decision with the move `m` of the world `mid`, and to its return later. -/
structure Decides (v : World α) (r : Nat) (b : BundleId) (ref : Reference) (mid : World α) (m : Move α) (x : Option α)
    (reply : Reply α) : Prop where
  course : ∃ l l' fin os, Returns v r (.get b ref) (l ++ m :: l') fin reply ∧
    v.run (.call r (.get b ref) :: l) = some (mid, os)
  /-- The decision is its own, not that of a `get` above it. -/
  own : mid.stack.length = v.stack.length + 1
  told : ∃ o, mid.play m = some o ∧ .decided r b ref x ∈ o.2

/-- Only the final section of a `get` tells of a decision. -/
theorem decided_of_step (hs : Step v top out) (hmem : .decided r b ref x ∈ out.2) :
    ∃ h fresh o due, top = some (.settling r h b ref fresh o) ∧
      out.1.stack = .releasing r h due (.got b ref x) :: v.stack := by
  rcases hs.tells hmem rfl with ⟨_, hq⟩ | htells
  · cases hq
  · cases htells with
    | decided => exact ⟨_, _, _, _, rfl, rfl⟩

/-- A call lasts through its moves but the last. -/
theorem Returns.lasts {op : Operation α} {l l' : List (Move α)} (hret : Returns v r op (l ++ m :: l') out reply)
    {o : Outcome α} (hrun : v.run (.call r op :: l) = some o) : Lasts v r op l o := by
  refine ⟨hrun, fun k hk z hz => hret.inside k (hk.trans (List.prefix_append ..)) ?_ z hz⟩
  intro heq
  have hlength := hk.length_le
  rw [heq, List.length_append, List.length_cons] at hlength
  omega

/-- What was in flight before a call stays below it. -/
theorem Lasts.above {op : Operation α} (hlasts : Lasts v r op ms out) : v.stack <:+ out.1.stack := by
  refine hlasts.induction (P := fun _ o => v.stack <:+ o.1.stack) ?_ ?_
  · intro o hplay _
    obtain ⟨-, hop, k, hk, rfl⟩ := calls_of_play hplay
    obtain ⟨p, hp⟩ := step_grows (step_call v hk hop)
    exact ⟨p, hp.symm⟩
  · intro l o m last hl habove hplay hmore
    rcases play_cases hplay with ⟨-, p, hp⟩ | ⟨k, fs, hk, hgo⟩
    · rw [hp]
      exact habove.trans (List.suffix_append ..)
    · obtain ⟨p, hp⟩ := step_grows hgo.step
      have hmore' := hl.inside l (List.prefix_refl _) o hl.run
      rw [hk] at habove hmore'
      rw [show last.1.stack = p ++ fs from hp]
      rcases List.suffix_cons_iff.mp habove with heq | hsuffix
      · rw [heq] at hmore'
        omega
      · exact hsuffix.trans (List.suffix_append ..)

theorem Decides.stack (hd : Decides v r b ref mid m x reply) :
    ∃ o h due, mid.play m = some o ∧ o.1.stack = .releasing r h due (.got b ref x) :: v.stack := by
  obtain ⟨l, l', fin, os, hret, hrun⟩ := hd.course
  obtain ⟨o, hplay, htold⟩ := hd.told
  have habove := (hret.lasts hrun).above
  have hown := hd.own
  obtain ⟨v', top, rfl, -, hs⟩ := play_step hplay
  obtain ⟨h, fresh, z, due, rfl, hstack⟩ := decided_of_step hs htold
  have hsame : v.stack = v'.stack := by
    have habove : v.stack <:+ .settling r h b ref fresh z :: v'.stack := habove
    have hown : v'.stack.length + 1 = v.stack.length + 1 := hown
    rcases List.suffix_cons_iff.mp habove with heq | hsuffix
    · rw [heq, List.length_cons] at hown
      omega
    · refine hsuffix.eq_of_length ?_
      omega
  exact ⟨o, h, due, hplay, by rw [hsame]; exact hstack⟩

/-- Until it returns, what is left of the call is to hand objects over and to say what it decided. -/
theorem Lasts.deciding {op : Operation α} {l : List (Move α)} {o : Outcome α}
    (hmid : v.run (.call r op :: l) = some (mid, os)) (hplay : mid.play m = some o) {h : Handle} {due : List (BundleId × α)}
    (hstack : o.1.stack = .releasing r h due (.got b ref x) :: v.stack) (k : List (Move α)) :
    ∀ z, Lasts v r op (l ++ m :: k) z → ∃ p h due, z.1.stack = p ++ .releasing r h due (.got b ref x) :: v.stack := by
  induction k using List.reverseRecOn with
  | nil =>
    intro z hlasts
    obtain ⟨mid', last, hmid', hplay', rfl⟩ := run_concat (.call r op :: l) hlasts.run
    obtain rfl := Option.some.inj (hmid.symm.trans hmid')
    obtain rfl := Option.some.inj (hplay.symm.trans hplay')
    exact ⟨[], h, due, hstack⟩
  | append_singleton k m' ih =>
    intro z hlasts
    have hsplit : l ++ m :: (k ++ [m']) = (l ++ m :: k) ++ [m'] := by simp
    rw [hsplit] at hlasts
    obtain ⟨mid', last, hmid', hplay', rfl⟩ := run_concat (.call r op :: (l ++ m :: k)) hlasts.run
    have hlasts' : Lasts v r op (l ++ m :: k) mid' :=
      ⟨hmid', fun i hi => hlasts.inside i (hi.trans (List.prefix_append ..))⟩
    have hmore := hlasts.inside _ (List.prefix_refl _) _ hlasts.run
    obtain ⟨p, h, due, hbelow⟩ := ih mid' hlasts'
    rcases play_inside hplay' hbelow with ⟨p', hp', -⟩ | ⟨rfl, hgo⟩
    · exact ⟨p', h, due, hp'⟩
    · cases due with
      | nil =>
        rw [goesOn_handed hgo] at hmore
        exact absurd hmore (by simp [conclude, after, stack_finish])
      | cons d due =>
        have hhanding := goesOn_handing hgo
        exact ⟨[], h, due, hhanding⟩

/-- A `get` returns what it decided. -/
theorem Decides.returned (hd : Decides v r b ref mid m x reply) : reply = .object x := by
  obtain ⟨o, h, due, hplay, hstack⟩ := hd.stack
  obtain ⟨l, l', fin, os, hret, hrun⟩ := hd.course
  rcases hret.cases with ⟨hnil, -⟩ | ⟨k, m', z, last, hsplit, hlasts, hlast, rfl⟩
  · simp at hnil
  rcases List.eq_nil_or_concat l' with rfl | ⟨k', m'', rfl⟩
  · -- The decision leaves its frame in flight, so it is not the last move.
    obtain ⟨rfl, hm⟩ := List.append_inj' hsplit rfl
    obtain rfl := (List.cons.inj hm).1
    obtain rfl := Option.some.inj (hrun.symm.trans hlasts.run)
    obtain rfl := Option.some.inj (hplay.symm.trans hlast)
    have hback := hret.back
    rw [show o.1.stack = _ from hstack, List.length_cons] at hback
    omega
  rw [List.concat_eq_append] at hsplit
  have hassoc : l ++ m :: (k' ++ [m'']) = (l ++ m :: k') ++ [m''] := by simp
  obtain ⟨rfl, -⟩ := List.append_inj' (hassoc.symm.trans hsplit) rfl
  obtain ⟨p, h, due, hbelow⟩ := Lasts.deciding hrun hplay hstack k' z hlasts
  have hback := hret.back
  have hreply := hret.reply
  rcases play_inside hlast hbelow with ⟨p', hp', -⟩ | ⟨rfl, hgo⟩
  · rw [show last.1.stack = _ from hp', List.length_append, List.length_cons] at hback
    omega
  cases due with
  | nil =>
    have hsaid := said_of_conclude (w := { z.1 with stack := v.stack }) hret.isClientsTurn r h b ref x
    rw [goesOn_handed hgo, hsaid, List.getLast?_append] at hreply
    simpa using hreply.symm
  | cons d due =>
    have hhanding := goesOn_handing hgo
    have hback : last.1.stack.length = v.stack.length := hback
    rw [hhanding] at hback
    exact absurd hback (Nat.succ_ne_self _)

/-! ## The life of an entry -/

def booked? (w : World α) (b : BundleId) (ref : Reference) : Option (Usage α) :=
  (w.registries[0]?).bind fun g => g.ledger.usage? b ref.id

/-- The world `w` has no entry of the pair. The first of the moves `ms` makes one, and it has been there since. -/
structure Lifetime (w : World α) (b : BundleId) (ref : Reference) (ms : List (Move α)) (out : Outcome α) : Prop where
  run : w.run ms = some out
  absent : w.booked? b ref = none
  present : ∀ l, l <+: ms → l ≠ [] → ∀ o, w.run l = some o → ∃ u, o.1.booked? b ref = some u ∧ u.reference = ref

/-- What a fresh object of a valid registration comes to, while the entry of its pair is `u`. -/
inductive Offered (b : BundleId) (ref : Reference) (factory : Bool) (y : α) (u : Usage α) (last : Outcome α) : Prop
  | first (hnone : u.object = none) (htold : .decided 0 b ref (some y) ∈ last.2)
      (hentry : last.1.booked? b ref = some { u with object := some y })
  /-- There is another already, which is granted, and this one goes back at once. -/
  | later {x : α} (hsome : u.object = some x) (htold : .decided 0 b ref (some x) ∈ last.2)
      (hentry : last.1.booked? b ref = some u)
      (hback : factory = true → .asked (.takeBack ref.target b y) ∈ last.2)

structure SharesOne (w : World α) (b : BundleId) (ref : Reference) (ms : List (Move α)) (out : Outcome α) : Prop where
  granted : ∀ x ∈ grants out.2 b ref, ∃ u, out.1.booked? b ref = some u ∧ u.object = some x
  /-- Whenever its call started, a `get` that decided for an object in this time returns that object. -/
  returned : ∀ l mid os m v x reply, l ++ [m] <+: ms → w.run l = some (mid, os) →
    Decides v 0 b ref mid m (some x) reply → reply = .object (some x) ∧
      ∃ u, out.1.booked? b ref = some u ∧ u.object = some x
  /-- The first fresh object wins. -/
  wins : ∀ m last r h y fs u, out.1.play m = some last → out.1.stack = .settling r h b ref true (some y) :: fs →
    out.1.booked? b ref = some u → Offered b ref (out.1.isFactory ref.target) y u last

theorem booked?_eq (hst : Standing w g) : w.booked? b ref = g.ledger.usage? b ref.id := by
  rw [booked?, hst.sole]
  rfl

theorem Lifetime.init (hlife : Lifetime w b ref (ms ++ [m]) out) :
    ∃ mid last, Lifetime w b ref ms mid ∧ mid.1.play m = some last ∧ out = (last.1, mid.2 ++ last.2) := by
  obtain ⟨mid, last, hmid, hplay, rfl⟩ := run_concat ms hlife.run
  exact ⟨mid, last, ⟨hmid, hlife.absent, fun l hl => hlife.present l (hl.trans (List.prefix_append ..))⟩, hplay, rfl⟩

theorem Lifetime.entry (hlife : Lifetime w b ref ms out) (hms : ms ≠ []) :
    ∃ u, out.1.booked? b ref = some u ∧ u.reference = ref :=
  hlife.present ms (List.prefix_refl _) hms out hlife.run

/-- An entry's reference is the only one of its id. -/
theorem only_of_entry (hst : Standing w g) {u : Usage α} (hu : w.booked? b ref = some u) (href : u.reference = ref) :
    IsOnly g ref := by
  rw [booked?_eq hst] at hu
  have hknown := hst.sound.known b u (Ledger.mem_of_usage? hu).1
  rw [href] at hknown
  exact only_of_known hknown

theorem only_before {g' : Registry α} (hst : Standing w g) (hplay : w.play m = some out) (hst' : Standing out.1 g')
    (honly : IsOnly g' ref) : IsOnly g ref := by
  obtain ⟨v, top, rfl, -, hs⟩ := play_step hplay
  exact honly.before hst hs hst'

theorem reachable_run (hst : ∃ g, Standing w g) (hrun : w.run ms = some out) : ∃ g, Standing out.1 g :=
  run_induction (P := fun w _ => ∃ g, Standing w g) (fun _ _ _ _ ⟨_, h⟩ hp => standing_play h hp) ms w [] out hst hrun

/-- What the last move of a life does to the entry. -/
theorem Lifetime.pair (hst : ∃ g, Standing w g) (hlife : Lifetime w b ref (ms ++ [m]) out) :
    ∃ mid last v top g g', Lifetime w b ref ms mid ∧ mid.1.play m = some last ∧ out = (last.1, mid.2 ++ last.2) ∧
      mid.1 = v.onto top ∧ (top = none → mid.1.isClientsTurn = true) ∧ Standing (v.onto top) g ∧ Standing last.1 g' ∧
      Step v top last ∧ PairStep v g g' b ref top last := by
  obtain ⟨mid, last, hinit, hplay, rfl⟩ := hlife.init
  obtain ⟨u, hu, href⟩ := hlife.entry (by simp)
  obtain ⟨g, hst⟩ := reachable_run hst hinit.run
  obtain ⟨g', hst'⟩ := standing_play hst hplay
  have honly : IsOnly g ref := only_before hst hplay hst' (only_of_entry hst' hu href)
  obtain ⟨v, top, hv, hturn, hs⟩ := play_step hplay
  rw [hv] at hst
  exact ⟨mid, last, v, top, g, g', hinit, hplay, rfl, hv, hturn, hst, hst', hs, pair_step hst hs hst' honly⟩

theorem Lifetime.granted (hst : ∃ g, Standing w g) (hlife : Lifetime w b ref ms out) :
    ∀ x ∈ grants out.2 b ref, ∃ u, out.1.booked? b ref = some u ∧ u.object = some x := by
  induction ms using List.reverseRecOn generalizing out with
  | nil =>
    obtain rfl := Option.some.inj hlife.run
    intro x hx
    cases hx
  | append_singleton ms m ih =>
    obtain ⟨u', hu', -⟩ := hlife.entry (by simp)
    obtain ⟨mid, last, v, top, g, g', hinit, -, rfl, hv, -, hst, hst', -, hp⟩ := hlife.pair hst
    rw [booked?_eq hst'] at hu'
    have hsteady := hp.steady hu'
    intro x hx
    rw [grants_append] at hx
    refine ⟨u', by rw [booked?_eq hst']; exact hu', ?_⟩
    rcases List.mem_append.mp hx with hx | hx
    · obtain ⟨u, hu, hobject⟩ := ih hinit x hx
      rw [hv, booked?_eq hst] at hu
      refine hsteady.kept x ?_
      rw [hu]
      exact hobject
    · exact hsteady.given x hx

/-- A fresh object meets the entry. -/
theorem offered_of_play {g : Registry α} (hst : Standing w g) (hplay : w.play m = some last) {h : Handle} {y : α}
    {fs : List (Frame α)} (hstack : w.stack = .settling r h b ref true (some y) :: fs) {u : Usage α}
    (hu : w.booked? b ref = some u) (href : u.reference = ref) :
    Offered b ref (w.isFactory ref.target) y u last := by
  obtain ⟨g', hst'⟩ := standing_play hst hplay
  obtain ⟨v, top, rfl, hturn, hp⟩ := pair_of_play (b := b) hst hplay hst' (only_of_entry hst hu href)
  rw [booked?_eq hst] at hu
  obtain ⟨htop, -⟩ := top_of_ready hturn hstack rfl
  subst htop
  have hone : gets (some (Frame.settling r h b ref true (some y))).toList b ref = 1 := gets_single rfl
  have hfactory : (v.onto (some (.settling r h b ref true (some y)))).isFactory ref.target = v.isFactory ref.target := rfl
  rw [hfactory]
  cases hp with
  | elsewhere htop => omega
  | decrement htop => omega
  | flush _ htop => omega
  | @settle _ _ _ e hs _ hledger hstack' hos =>
    have htold : Occurrence.decided 0 b ref e.object ∈ last.2 := mem_of_gist hos
    have hvalid : v.isValid ref.target = true := by
      rw [← href]
      exact hst.valid b u (Ledger.mem_of_usage? hu).1
    have hentry : last.1.booked? b ref = e.ledger.usage? b ref.id := by rw [booked?_eq hst', hledger]
    cases hs with
    | cached _ hfresh => cases hfresh
    | missing _ _ _ hnone => cases hnone.symm.trans hu
    | existing _ _ ho hu' hc =>
      obtain rfl := Option.some.inj (hu.symm.trans hu')
      obtain rfl := Option.some.inj ho
      refine .later hc htold (hentry.trans hu) fun hfactory => ?_
      rw [handOver, dueTo, if_pos hfactory] at hos
      have hmem : Occurrence.asked (.takeBack ref.target b y) ∈ gist last.2 := by
        rw [hos]
        exact List.mem_cons_of_mem _ (List.mem_singleton.mpr rfl)
      exact (List.mem_filter.mp hmem).1
    | kept _ _ ho hnone _ he =>
      obtain rfl := Option.some.inj (hu.symm.trans he.usage?_before)
      obtain rfl := Option.some.inj ho
      exact .first hnone htold (hentry.trans he.usage?_after)
    | lost hno => rcases hno with hno | hno <;> simp [hvalid] at hno
    | spent hno => rcases hno with hno | hno <;> simp [hvalid] at hno
    | dropped hno => rcases hno with hno | hno <;> simp [hvalid] at hno

/-- What a move of a run tells is part of what the run tells. -/
theorem told_of_prefix {l : List (Move α)} (hrun : w.run ms = some out) (hl : l ++ [m] <+: ms)
    (hmid : w.run l = some (mid, os)) {o : Outcome α} (hplay : mid.play m = some o) {t : Occurrence α} (ht : t ∈ o.2) :
    t ∈ out.2 := by
  have hone : w.run (l ++ [m]) = some (o.1, os ++ o.2) := run_extend hmid hplay
  obtain ⟨l', rfl⟩ := hl
  rw [run_append, hone] at hrun
  obtain ⟨z, -, rfl⟩ := Option.map_eq_some_iff.mp hrun
  exact List.mem_append_left _ (List.mem_append_right _ ht)

theorem Lifetime.sharesOne (hst : ∃ g, Standing w g) (hlife : Lifetime w b ref ms out) : SharesOne w b ref ms out := by
  refine ⟨hlife.granted hst, ?_, ?_⟩
  · intro l mid os m v x reply hl hmid hd
    obtain ⟨o, hplay, htold⟩ := hd.told
    have hout := told_of_prefix hlife.run hl hmid hplay htold
    refine ⟨hd.returned, hlife.granted hst x ?_⟩
    exact List.mem_filterMap.mpr ⟨_, hout, by simp [Occurrence.granted?]⟩
  · intro m last r h y fs u hplay hstack hu
    have hms : ms ≠ [] := by
      rintro rfl
      obtain rfl := Option.some.inj hlife.run
      cases hlife.absent.symm.trans hu
    obtain ⟨u', hu', href⟩ := hlife.entry hms
    obtain rfl := Option.some.inj (hu.symm.trans hu')
    obtain ⟨g, hst'⟩ := reachable_run hst hlife.run
    exact offered_of_play hst' hplay hstack hu href

end World

end Switchboard
