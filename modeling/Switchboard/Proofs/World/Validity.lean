/-
  Switchboard.Proofs.World.Validity — is what a `get` returned still valid?

  A `get` decides in its final section, and grants an object only of a registration that is valid
  then. If another object was cached meanwhile, it still hands its own one back before it returns,
  and what the factory does then may withdraw the registration. So a registration whose object is
  returned is valid if and only if it was not drained between the decision and the return, and
  nothing comes between them but what that hand-over brings about (`valid_at_return`).

  That a withdrawal does come between is shown by `get_returns_withdrawn`.
-/

import Switchboard.Proofs.World.Call

namespace Switchboard

namespace World

variable {α : Type} {w v : World α} {g : Registry α} {top : Option (Frame α)} {out : Outcome α} {h : Handle}
  {os os' : List (Occurrence α)} {r : Nat} {b : BundleId} {ref : Reference}

/-! ## Drained and invalid -/

def Undrained (h : Handle) (os : List (Occurrence α)) : Prop := ∀ r n, .drained r h n ∉ os

theorem undrained_append : Undrained h (os ++ os') ↔ Undrained h os ∧ Undrained h os' := by
  constructor
  · intro hboth
    exact ⟨fun r n hmem => hboth r n (List.mem_append_left _ hmem), fun r n hmem => hboth r n (List.mem_append_right _ hmem)⟩
  · rintro ⟨hl, hr⟩ r n hmem
    rcases List.mem_append.mp hmem with hmem | hmem
    · exact hl r n hmem
    · exact hr r n hmem

theorem undrained_asks (f : Frame α) : Undrained h f.asks := by
  intro r n hmem
  obtain ⟨q, -, hq⟩ := List.mem_map.mp hmem
  cases hq

/-- What a step tells to be drained is invalid after it. -/
theorem invalid_of_drained (hst : Standing (v.onto top) g) (hs : Step v top out) {n : Nat} (hmem : .drained r h n ∈ out.2) :
    out.1.phase? h = some .invalid := by
  rcases hs.tells hmem rfl with ⟨_, hq⟩ | htells
  · cases hq
  · cases htells with
    | drained => exact hst.phase_drained

/-- A step leaves a valid registration valid unless it drains it. -/
theorem valid_step (hst : Standing (v.onto top) g) (hs : Step v top out) (hvalid : v.isValid h = true) :
    out.1.isValid h = true ↔ Undrained h out.2 := by
  constructor
  · intro hvalid' r n hmem
    have hinvalid := invalid_of_drained hst hs hmem
    rcases isValid_iff.mp hvalid' with hp | hp <;> cases hp.symm.trans hinvalid
  · intro hundrained
    rcases phase_step hst hs h with hsame | ⟨-, hp⟩ | ⟨-, hp, -⟩ | ⟨-, -, r, n, hmem⟩
    · rwa [isValid_eq hsame]
    · exact isValid_iff.mpr (Or.inl hp)
    · exact isValid_iff.mpr (Or.inr hp)
    · exact absurd hmem (hundrained r n)

def ValidSince (w : World α) (h : Handle) (os : List (Occurrence α)) : Prop :=
  (w.isValid h = true ∧ Undrained h os) ∨ (w.phase? h = some .invalid ∧ ¬ Undrained h os)

theorem ValidSince.iff (hsince : ValidSince w h os) : w.isValid h = true ↔ Undrained h os := by
  rcases hsince with ⟨hvalid, hundrained⟩ | ⟨hinvalid, hdrained⟩
  · exact iff_of_true hvalid hundrained
  · refine iff_of_false (fun hvalid => ?_) hdrained
    rcases isValid_iff.mp hvalid with hp | hp <;> cases hp.symm.trans hinvalid

theorem ValidSince.step (hsince : ValidSince (v.onto top) h os) (hst : Standing (v.onto top) g) (hs : Step v top out) :
    ValidSince out.1 h (os ++ out.2) := by
  unfold ValidSince
  rw [undrained_append]
  rcases hsince with ⟨hvalid, hundrained⟩ | ⟨hinvalid, hdrained⟩
  · by_cases hu : Undrained h out.2
    · exact Or.inl ⟨(valid_step hst hs hvalid).mpr hu, hundrained, hu⟩
    · obtain ⟨r, n, hmem⟩ : ∃ r n, .drained r h n ∈ out.2 := by
        simpa [Undrained] using hu
      exact Or.inr ⟨invalid_of_drained hst hs hmem, fun hboth => hu hboth.2⟩
  · exact Or.inr ⟨invalid_step hs hinvalid, fun hboth => hdrained hboth.1⟩

/-! ## How a `get` goes on -/

variable {f : Frame α} {fresh : Bool} {o : Option α} {due : List (BundleId × α)} {e : Ending α} {p : List (Frame α)}
  {ms : List (Move α)}

theorem goesOn_resolving (hgo : GoesOn v (.resolving r h b ref) out) :
    ∃ x, out.1.stack = .settling r h b ref true x :: v.stack := by
  rcases hgo with ⟨q, a, o, hq, ho, rfl⟩ | hout
  · cases a with
    | supplied x =>
      obtain rfl := Option.some.inj ho
      exact ⟨x, rfl⟩
    | done => cases ho
    | verdict => cases ho
  · cases hout

/-- The decision, and what of it goes back to the factory. -/
theorem goesOn_settling (hgo : GoesOn v (.settling r h b ref fresh o) out) :
    ∃ (k : Registry α) (os : List (Occurrence α)) (e : Settlement α), v.registries[r]? = some k ∧
      e = v.settlement k h b ref fresh o ∧ (∀ t, out.1.phase? t = v.phase? t) ∧
      out.1.stack = .releasing r h (v.dueTo h (e.due.map (b, ·))) (.got b ref e.object) :: v.stack ∧
      out.2 = os ++ .decided r b ref e.object ::
        (Frame.releasing r h (v.dueTo h (e.due.map (b, ·))) (.got b ref e.object)).asks := by
  rcases hgo with ⟨q, a, o, hq, ho, rfl⟩ | hout
  · cases hq
  · obtain ⟨k, hk, rfl⟩ := Option.map_eq_some_iff.mp hout
    refine ⟨k, if o.isNone then [.unresolved r b h] else [], _, hk, rfl, fun t => rfl, rfl, ?_⟩
    exact List.append_assoc ..

theorem goesOn_handing {d : BundleId × α} (hgo : GoesOn v (.releasing r h (d :: due) e) out) :
    out.1.stack = .releasing r h due e :: v.stack := by
  rcases hgo with ⟨q, a, o, hq, ho, rfl⟩ | hout
  · cases a with
    | done =>
      obtain rfl := Option.some.inj ho
      rfl
    | supplied => cases ho
    | verdict => cases ho
  · cases hout

theorem goesOn_handed (hgo : GoesOn v (.releasing r h [] e) out) : out = v.conclude r h e := by
  rcases hgo with ⟨q, a, o, hq, ho, rfl⟩ | hout
  · cases hq
  · exact (Option.some.inj hout).symm

theorem phase?_finish (w : World α) (reply : Reply α) (t : Handle) : (w.finish reply).1.phase? t = w.phase? t :=
  (idles_finish w none reply).alike.phase? t

/-! ## A whole `get` -/

/-- Where a `get` stands, with `p` in flight above it: before its decision, or after it, with
    what happened since. -/
inductive Underway (w : World α) (r : Nat) (b : BundleId) (ref : Reference) (p : List (Frame α)) :
    Frame α → List (Occurrence α) → Prop
  | resolving {os : List (Occurrence α)} : Underway w r b ref p (.resolving r ref.target b ref) os
  | settling {fresh : Bool} {o : Option α} {os : List (Occurrence α)} :
      Underway w r b ref p (.settling r ref.target b ref fresh o) os
  | decided {os os' : List (Occurrence α)} {o : Option α} {due : List (BundleId × α)}
      (hsince : o.isSome → ValidSince w ref.target os')
      (hgap : (p = [] ∧ due = [] ∧ os' = []) ∨ ∃ x os'', os' = .asked (.takeBack ref.target b x) :: os'') :
      Underway w r b ref p (.releasing r ref.target due (.got b ref o)) (os ++ .decided r b ref o :: os')

/-- What happens above a `get` leaves it where it stands. -/
theorem Underway.above (hu : Underway (v.onto top) r b ref p f os) (hst : Standing (v.onto top) g) (hs : Step v top out)
    {p' : List (Frame α)} (hawait : p = [] → f.question?.isSome) : Underway out.1 r b ref p' f (os ++ out.2) := by
  cases hu with
  | resolving => exact .resolving
  | settling => exact .settling
  | decided hsince hgap =>
    rw [List.append_assoc, List.cons_append]
    refine .decided (fun ho => ValidSince.step (hsince ho) hst hs) (Or.inr ?_)
    rcases hgap with ⟨hp, rfl, -⟩ | ⟨x, os'', rfl⟩
    · cases hawait hp
    · exact ⟨x, _, rfl⟩

/-- What a `get` that is innermost does to itself. -/
theorem Underway.goesOn (hu : Underway (v.onto (some f)) r b ref [] f os) (hst : Standing (v.onto (some f)) g)
    (hgo : GoesOn v f out) (hmore : v.stack.length < out.1.stack.length) :
    ∃ f', out.1.stack = f' :: v.stack ∧ Underway out.1 r b ref [] f' (os ++ out.2) := by
  cases hu with
  | resolving =>
    obtain ⟨x, hx⟩ := goesOn_resolving hgo
    exact ⟨_, hx, .settling⟩
  | @settling fresh o os =>
    obtain ⟨k, os', e, hk, he, hphase, hstack, hos⟩ := goesOn_settling hgo
    refine ⟨_, hstack, ?_⟩
    obtain ⟨rfl, rfl⟩ := sole_get (show v.registries = #[g] from hst.sole) hk
    have hsettles := settles_of_eq hst.sound.ledger he
    rw [hos, ← List.append_assoc]
    refine .decided (fun hobject => Or.inl ⟨?_, undrained_asks _⟩) ?_
    · rw [isValid_eq (hphase _)]
      exact hsettles.valid_of_object hobject
    · cases hdue : v.dueTo ref.target (e.due.map (b, ·)) with
      | nil => exact Or.inl ⟨rfl, rfl, rfl⟩
      | cons d due =>
        right
        have hmem : d ∈ e.due.map (b, ·) := by
          have hd : d ∈ v.dueTo ref.target (e.due.map (b, ·)) := by
            rw [hdue]
            exact List.mem_cons_self ..
          unfold dueTo at hd
          split at hd
          · exact hd
          · cases hd
        obtain ⟨x, -, rfl⟩ := List.mem_map.mp hmem
        exact ⟨x, [], rfl⟩
  | @decided os os' o due hsince hgap =>
    cases due with
    | nil =>
      rw [goesOn_handed hgo] at hmore
      exact absurd hmore (by simp [conclude, after, stack_finish])
    | cons d due =>
      refine ⟨_, goesOn_handing hgo, ?_⟩
      rw [List.append_assoc, List.cons_append]
      refine .decided (fun ho => (hsince ho).step hst hgo.step) (Or.inr ?_)
      rcases hgap with ⟨-, hdue, -⟩ | ⟨x, os'', rfl⟩
      · cases hdue
      · exact ⟨x, _, rfl⟩

/-- A `get` is over when what it decided is said. -/
theorem Underway.ends (hu : Underway (v.onto (some f)) r b ref [] f os) (hturn : v.isClientsTurn = true)
    (hgo : GoesOn v f out) (hback : out.1.stack.length = v.stack.length) :
    ∃ os1 os2 o, os = os1 ++ .decided r b ref o :: os2 ∧ out.2 = [.got r b ref o, .returned (.object o)] ∧
      (∀ t, out.1.phase? t = v.phase? t) ∧ (o.isSome → ValidSince v ref.target os2) ∧
      (os2 = [] ∨ ∃ x os3, os2 = .asked (.takeBack ref.target b x) :: os3) := by
  cases hu with
  | resolving =>
    obtain ⟨x, hx⟩ := goesOn_resolving hgo
    rw [hx, List.length_cons] at hback
    omega
  | settling =>
    obtain ⟨k, os', e, -, -, -, hstack, -⟩ := goesOn_settling hgo
    rw [hstack, List.length_cons] at hback
    omega
  | @decided os1 os2 o due hsince hgap =>
    cases due with
    | nil =>
      rw [goesOn_handed hgo]
      refine ⟨os1, os2, o, rfl, said_of_conclude hturn .., phase?_finish v _, hsince, ?_⟩
      rcases hgap with ⟨-, -, hos⟩ | hasked
      · exact Or.inl hos
      · exact Or.inr hasked
    | cons d due =>
      rw [goesOn_handing hgo, List.length_cons] at hback
      omega

theorem underway_fetch (w : World α) (r : Nat) (b : BundleId) (ref : Reference) (p : List (Frame α)) (cached : Option α)
    (source : Source α) (os : List (Occurrence α)) : Underway w r b ref p (fetch r b ref cached source) os := by
  unfold fetch
  split
  · exact .settling
  · exact .settling
  · exact .resolving

/-- A `get` that does not return at once is in flight. -/
theorem underway_call (hplay : w.play (.call r (.get b ref)) = some out)
    (hmore : w.stack.length < out.1.stack.length) :
    ∃ f, out.1.stack = f :: w.stack ∧ Underway out.1 r b ref [] f out.2 := by
  obtain ⟨-, -, k, -, rfl⟩ := calls_of_play hplay
  cases hx : w.behind? ref with
  | none =>
    rw [call, get_of_invalid w r k b hx, after, stack_finish] at hmore
    exact absurd hmore (Nat.lt_irrefl _)
  | some x =>
    rw [call, get_of_valid w r k b hx]
    exact ⟨_, rfl, underway_fetch ..⟩

/-- A `get` that returns at once has no object to return. -/
theorem reply_of_back (hplay : w.play (.call r (.get b ref)) = some out) (hback : out.1.stack.length = w.stack.length) :
    out.2.getLast? = some (.returned (.object none)) := by
  obtain ⟨hturn, -, k, -, rfl⟩ := calls_of_play hplay
  cases hx : w.behind? ref with
  | none =>
    rw [call, get_of_invalid w r k b hx, after, finish_eq hturn (by simp)]
    rfl
  | some x =>
    rw [call, get_of_valid w r k b hx] at hback
    exact absurd hback (Nat.succ_ne_self _)

theorem ValidSince.congr (hsince : ValidSince w h os) (hphase : v.phase? h = w.phase? h) : ValidSince v h os := by
  rw [ValidSince, isValid_eq hphase, hphase]
  exact hsince

/-- A `get` that returns an object decided for it, and between the decision and the return comes only what
    the hand-over of a redundant object brings about. -/
theorem decided_of_returns (hst : ∃ g, Standing w g) {o : α}
    (hret : Returns w r (.get b ref) ms out (.object (some o))) :
    ∃ os1 os2, out.2 = os1 ++ .decided r b ref (some o) :: (os2 ++ [.got r b ref (some o), .returned (.object (some o))]) ∧
      ValidSince out.1 ref.target os2 ∧ (os2 = [] ∨ ∃ x os3, os2 = .asked (.takeBack ref.target b x) :: os3) := by
  obtain ⟨g, hst⟩ := hst
  have hreply := hret.reply
  have hmoves := hret.frame_induction
    (Q := fun p f o => (∃ g, Standing o.1 g) ∧ Underway o.1 r b ref p f o.2) ?hcall ?habove ?hgoes
  case hcall =>
    intro o hplay hmore
    obtain ⟨f, hf, hu⟩ := underway_call hplay hmore
    exact ⟨f, hf, standing_play hst hplay, hu⟩
  case habove =>
    rintro ⟨w', os'⟩ m last p p' f - ⟨⟨g, hst⟩, hu⟩ hplay hawait
    have hst' : ∃ g', Standing last.1 g' := standing_play hst hplay
    obtain ⟨v, top, rfl, -, hs⟩ := play_step hplay
    exact ⟨hst', hu.above hst hs hawait⟩
  case hgoes =>
    rintro ⟨w', os'⟩ m last f hstack ⟨⟨g, hst⟩, hu⟩ hplay hgo hmore
    have hst' : ∃ g', Standing last.1 g' := standing_play hst hplay
    rw [eq_onto (show w'.stack = f :: w.stack from hstack)] at hu hst
    obtain ⟨f', hf', hu'⟩ := hu.goesOn hst hgo hmore
    exact ⟨f', hf', hst', hu'⟩
  rcases hmoves with hplay | ⟨⟨w', os'⟩, f, last, hstack, ⟨-, hu⟩, hgo, rfl⟩
  · rw [reply_of_back hplay hret.back] at hreply
    cases hreply
  · rw [eq_onto (show w'.stack = f :: w.stack from hstack)] at hu
    obtain ⟨os1, os2, x, rfl, hsaid, hphase, hsince, hgap⟩ := hu.ends hret.isClientsTurn hgo hret.back
    dsimp only at hreply ⊢
    rw [hsaid] at hreply ⊢
    rw [List.getLast?_append] at hreply
    obtain rfl : x = some o := by simpa using hreply
    exact ⟨os1, os2, by simp, (hsince rfl).congr (hphase _), hgap⟩

/-- When a `get` returns an object, its registration is valid if and only if it was not drained
    since the decision; and that happens only while a redundant object is handed back, for with
    nothing to hand back the `get` returns at once. -/
theorem valid_at_return {c : Config} {hasSink : Bool} {before : List (Move α)}
    (hbefore : (start [(c, hasSink)]).run before = some (w, os)) {o : α}
    (hret : Returns w r (.get b ref) ms out (.object (some o))) :
    ∃ os1 os2, out.2 = os1 ++ .decided r b ref (some o) :: os2 ∧
      (out.1.isValid ref.target = true ↔ Undrained ref.target os2) ∧
      (os2 = [.got r b ref (some o), .returned (.object (some o))] ∨
        ∃ x os3, os2 = .asked (.takeBack ref.target b x) :: os3) := by
  obtain ⟨os1, os2, hout, hsince, hgap⟩ := decided_of_returns (standing_run hbefore) hret
  refine ⟨os1, os2 ++ [.got r b ref (some o), .returned (.object (some o))], hout, ?_, ?_⟩
  · have hquiet : Undrained ref.target [.got r b ref (some o), .returned (.object (some o))] := by simp [Undrained]
    rw [undrained_append, and_iff_left hquiet, hsince.iff]
  · rcases hgap with rfl | ⟨y, os3, rfl⟩
    · exact Or.inl rfl
    · exact Or.inr ⟨y, _, rfl⟩

/-! ## Withdrawn before the return -/

def published : List (Move Nat) := [.call 0 (.register 7 "a" .factory none), .call 0 (.findOne "a")]

/-- While the factory makes an object for a `get`, a second `get` of the pair is granted its own;
    the first one's is redundant then, and the factory is handed it. -/
def redundant : List (Move Nat) :=
  [.call 0 (.get 9 ⟨1, 1, 0⟩), .answer (.supplied (some 5)), .tick, .tick, .answer (.supplied (some 6)), .tick]

def takenBack : List (Move Nat) := redundant ++ [.answer .done, .tick]

def withdrawnMeanwhile : List (Move Nat) :=
  redundant ++ [.call 0 (.unregister 7 0), .tick, .answer .done, .tick, .answer .done, .tick]

def returnsObject (n : Nat) : Occurrence Nat → Bool
  | .returned (.object (some k)) => k == n
  | _ => false

theorem eq_of_returnsObject {n : Nat} {o : Occurrence Nat} (h : returnsObject n o = true) :
    o = .returned (.object (some n)) := by
  unfold returnsObject at h
  split at h
  · rw [beq_iff_eq.mp h]
  · cases h

theorem valid_at_return_takenBack : ∃ w os out, (start [(Config.standard, false)]).run published = some (w, os) ∧
    Returns w 0 (.get 9 ⟨1, 1, 0⟩) takenBack out (.object (some 5)) ∧
    ∃ os1 os2, out.2 = os1 ++ .decided 0 9 ⟨1, 1, 0⟩ (some 5) :: os2 ∧ (out.1.isValid 0 = true ↔ Undrained 0 os2) ∧
      (os2 = [.got 0 9 ⟨1, 1, 0⟩ (some 5), .returned (.object (some 5))] ∨
        ∃ x os3, os2 = .asked (.takeBack 0 9 x) :: os3) := by
  have hany : ((start [(Config.standard, false)]).run published).any (fun out =>
      out.1.returns 0 (.get 9 ⟨1, 1, 0⟩) takenBack fun o => o.2.getLast?.any (returnsObject 5)) = true := by decide +kernel
  obtain ⟨⟨w, os⟩, hbefore, hw⟩ := (Option.any_eq_true _ _).mp hany
  obtain ⟨out, hlast, hret⟩ := returns_of_all hw
  obtain ⟨o, ho, hobject⟩ := (Option.any_eq_true _ _).mp hlast
  obtain rfl := eq_of_returnsObject hobject
  have hret := hret _ ho
  exact ⟨w, os, out, hbefore, hret, valid_at_return hbefore hret⟩

/-- The object is returned although its registration is invalid by then, and although it was
    handed back already. -/
theorem get_returns_withdrawn : ∃ w os out, (start [(Config.standard, false)]).run published = some (w, os) ∧
    Returns w 0 (.get 9 ⟨1, 1, 0⟩) withdrawnMeanwhile out (.object (some 5)) ∧ out.1.phase? 0 = some .invalid := by
  have hany : ((start [(Config.standard, false)]).run published).any (fun out =>
      out.1.returns 0 (.get 9 ⟨1, 1, 0⟩) withdrawnMeanwhile fun o =>
        o.2.getLast?.any (returnsObject 5) && o.1.phase? 0 == some .invalid) = true := by decide +kernel
  obtain ⟨⟨w, os⟩, hbefore, hw⟩ := (Option.any_eq_true _ _).mp hany
  obtain ⟨out, hout, hret⟩ := returns_of_all hw
  obtain ⟨hlast, hphase⟩ := Bool.and_eq_true_iff.mp hout
  obtain ⟨o, ho, hobject⟩ := (Option.any_eq_true _ _).mp hlast
  obtain rfl := eq_of_returnsObject hobject
  exact ⟨w, os, out, hbefore, hret _ ho, beq_iff_eq.mp hphase⟩

end World

end Switchboard
