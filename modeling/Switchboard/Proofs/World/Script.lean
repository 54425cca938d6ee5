/-
  Switchboard.Proofs.World.Script — clients that carry out a script.

  At rest such a client makes the next move of its script (`Errand`). Until everything is at rest
  again it answers the call backs, and calls nothing meanwhile (`Completes`). Its answers are settled
  beforehand: those of a filter by the properties, and those of a factory by the registration, the
  bundle and what factories were asked for before (`answerTo`). What happens is written into a
  diary, errand by errand (`Walks`).

  A script leaves no choice: it has one diary at most (`Walks.unique`), and running it finds that
  diary (`walks_of_walk?`).
-/

import Switchboard.Proofs.World.Withdrawal

namespace Switchboard

variable {α : Type}

/-- What factories make of the next request, by all requests before it: an object for the bundle,
    or none. How often one factory was asked can be counted in them. -/
abbrev Factories (α : Type) : Type := List (Handle × BundleId) → Handle → BundleId → Option α

/-- One entry of a script: a move at rest, and what the client's filter picks if it is asked. -/
structure Errand (α : Type) where
  move : Move α
  picks : Properties → Bool

def Occurrence.order? : Occurrence α → Option (Handle × BundleId)
  | answered (.supply h b) _ => some (h, b)
  | _ => none

def orders (os : List (Occurrence α)) : List (Handle × BundleId) := os.filterMap Occurrence.order?

theorem orders_append (os os' : List (Occurrence α)) : orders (os ++ os') = orders os ++ orders os' :=
  List.filterMap_append

def answerTo (makes : Factories α) (picks : Properties → Bool) (os : List (Occurrence α)) : Question α → Answer α
  | .event .. | .takeBack .. => .done
  | .filter _ p => .verdict (picks p)
  | .supply h b => .supplied (makes (orders os) h b)

def Operation.refs : Operation α → List Reference
  | users ref | usage _ ref | get _ ref | unget _ ref => [ref]
  | _ => []

/-- Lookups whose references come in an order that does not depend on tables. -/
def Operation.isOrderly : Operation α → Bool
  | findOne .. | registered .. | hooks => true
  | _ => false

def replied (os : List (Occurrence α)) : List Reference :=
  os.flatMap fun
    | .returned reply => reply.mentions
    | _ => []

namespace Errand

def refs (e : Errand α) : List Reference :=
  match e.move with
  | .call _ op => op.refs
  | _ => []

def finds (e : Errand α) (said : List (Occurrence α)) : List Reference :=
  match e.move with
  | .call _ op => if op.isOrderly then replied said else []
  | _ => []

end Errand

/-- A diary in which operations are given only references that are among `seen` or that orderly
    lookups of the diary found before. -/
def Traced (seen : List Reference) : List (Errand α × List (Occurrence α)) → Prop
  | [] => True
  | (e, said) :: diary => (∀ ref ∈ e.refs, ref ∈ seen) ∧ Traced (seen ++ e.finds said) diary

instance Traced.decidable : ∀ (seen : List Reference) (diary : List (Errand α × List (Occurrence α))),
    Decidable (Traced seen diary)
  | _, [] => inferInstanceAs (Decidable True)
  | seen, (e, said) :: diary =>
    have := Traced.decidable (seen ++ e.finds said) diary
    inferInstanceAs (Decidable ((∀ ref ∈ e.refs, ref ∈ seen) ∧ Traced (seen ++ e.finds said) diary))

namespace World

variable {makes : Factories α} {picks : Properties → Bool} {os : List (Occurrence α)} {p last last' : Outcome α}
  {diary diary' : List (Errand α × List (Occurrence α))}

def reaction (w : World α) (makes : Factories α) (picks : Properties → Bool) (os : List (Occurrence α)) : Move α :=
  match w.pending? with
  | some q => .answer (answerTo makes picks os q)
  | none => .tick

/-- From a world and what happened since the errand began, to the end of the errand; `os` happened
    before it. -/
inductive Completes (makes : Factories α) (picks : Properties → Bool) (os : List (Occurrence α)) :
    Outcome α → Outcome α → Prop
  | done {p : Outcome α} (hrest : p.1.stack = []) : Completes makes picks os p p
  | move {p out last : Outcome α} (hbusy : p.1.stack ≠ [])
      (hplay : p.1.play (p.1.reaction makes picks (os ++ p.2)) = some out)
      (hmore : Completes makes picks os (out.1, p.2 ++ out.2) last) : Completes makes picks os p last

/-- From a world at rest and all that happened so far, through a script with this diary, to a world. -/
inductive Walks (makes : Factories α) : Outcome α → List (Errand α × List (Occurrence α)) → World α → Prop
  | done {w : World α} {os : List (Occurrence α)} : Walks makes (w, os) [] w
  | errand {w v last : World α} {os said : List (Occurrence α)} {e : Errand α} {out : Outcome α}
      {diary : List (Errand α × List (Occurrence α))} (hplay : w.play e.move = some out)
      (hcompletes : Completes makes e.picks os out (v, said)) (hmore : Walks makes (v, os ++ said) diary last) :
      Walks makes (w, os) ((e, said) :: diary) last

/-! ## One diary at most -/

theorem Completes.unique (h : Completes makes picks os p last) (h' : Completes makes picks os p last') : last' = last := by
  induction h with
  | done hrest =>
    cases h' with
    | done => rfl
    | move hbusy => exact absurd hrest hbusy
  | move hbusy hplay _ ih =>
    cases h' with
    | done hrest => exact absurd hrest hbusy
    | move _ hplay' hmore =>
      rw [hplay] at hplay'
      obtain rfl := Option.some.inj hplay'
      exact ih hmore

theorem Walks.unique {w w' : World α} (h : Walks makes p diary w) (h' : Walks makes p diary' w')
    (hscript : diary'.map (·.1) = diary.map (·.1)) : diary' = diary ∧ w' = w := by
  induction h generalizing diary' with
  | done =>
    obtain rfl := List.map_eq_nil_iff.mp hscript
    cases h'
    exact ⟨rfl, rfl⟩
  | errand hplay hcompletes _ ih =>
    cases h' with
    | done => cases hscript
    | errand hplay' hcompletes' hmore' =>
      obtain ⟨rfl, hothers⟩ := List.cons.inj hscript
      rw [hplay] at hplay'
      obtain rfl := Option.some.inj hplay'
      obtain ⟨rfl, rfl⟩ := Prod.mk.inj (hcompletes.unique hcompletes')
      obtain ⟨rfl, rfl⟩ := ih hmore' hothers
      exact ⟨rfl, rfl⟩

/-! ## What an errand keeps -/

/-- What every move keeps, an errand keeps. -/
theorem Completes.keeps {P : World α → List (Occurrence α) → Prop}
    (hmove : ∀ w os m out, P w os → w.play m = some out → P out.1 (os ++ out.2))
    (h : Completes makes picks os p last) (hp : P p.1 (os ++ p.2)) : P last.1 (os ++ last.2) := by
  induction h with
  | done => exact hp
  | move _ hplay _ ih =>
    refine ih ?_
    rw [← List.append_assoc]
    exact hmove _ _ _ _ hp hplay

theorem Completes.at_rest (h : Completes makes picks os p last) : last.1.stack = [] := by
  induction h with
  | done hrest => exact hrest
  | move _ _ _ ih => exact ih

/-- An errand that is at rest again at once. -/
theorem Completes.at_once (h : Completes makes picks os p last) (hrest : p.1.stack = []) : last = p :=
  (Completes.done hrest).unique h

/-! ## Running a script -/

def complete? (makes : Factories α) (picks : Properties → Bool) (os : List (Occurrence α)) :
    Nat → Outcome α → Option (Outcome α)
  | 0, _ => none
  | fuel + 1, p =>
    if p.1.stack.isEmpty then some p
    else do
      let out ← p.1.play (p.1.reaction makes picks (os ++ p.2))
      complete? makes picks os fuel (out.1, p.2 ++ out.2)

def walk? (makes : Factories α) (fuel : Nat) :
    Outcome α → List (Errand α) → Option (List (Errand α × List (Occurrence α)) × World α)
  | p, [] => some ([], p.1)
  | p, e :: es => do
    let out ← p.1.play e.move
    let last ← complete? makes e.picks p.2 fuel out
    let (diary, w) ← walk? makes fuel (last.1, p.2 ++ last.2) es
    some ((e, last.2) :: diary, w)

theorem completes_of_complete? {fuel : Nat} (h : complete? makes picks os fuel p = some last) :
    Completes makes picks os p last := by
  induction fuel generalizing p with
  | zero => cases h
  | succ fuel ih =>
    rw [complete?] at h
    split at h
    · rename_i hrest
      obtain rfl := Option.some.inj h
      exact .done (List.isEmpty_iff.mp hrest)
    · rename_i hbusy
      obtain ⟨out, hplay, h⟩ := Option.bind_eq_some_iff.mp h
      exact .move (fun hrest => hbusy (List.isEmpty_iff.mpr hrest)) hplay (ih h)

theorem walks_of_walk? {fuel : Nat} {es : List (Errand α)} {w : World α}
    (h : walk? makes fuel p es = some (diary, w)) : Walks makes p diary w ∧ diary.map (·.1) = es := by
  induction es generalizing p diary with
  | nil =>
    obtain ⟨rfl, rfl⟩ := Prod.mk.inj (Option.some.inj h)
    exact ⟨.done, rfl⟩
  | cons e es ih =>
    rw [walk?] at h
    obtain ⟨out, hplay, h⟩ := Option.bind_eq_some_iff.mp h
    obtain ⟨⟨v, said⟩, hcomplete, h⟩ := Option.bind_eq_some_iff.mp h
    obtain ⟨⟨rest, v'⟩, hwalk, h⟩ := Option.bind_eq_some_iff.mp h
    obtain ⟨rfl, rfl⟩ := Prod.mk.inj (Option.some.inj h)
    obtain ⟨hmore, hscript⟩ := ih hwalk
    exact ⟨.errand hplay (completes_of_complete? hcomplete) hmore, congrArg (e :: ·) hscript⟩

end World

end Switchboard
