/-
  Switchboard.Proofs.World.Use — how a `get` can end.

  The final section of a `get` goes one of seven ways (`Settles`). It gives an object in three
  of them and changes the ledger in three: a fresh object is cached, a use is given up, or the
  last use is and the entry goes with what it had cached.
-/

import Switchboard.Proofs.Registry.State
import Switchboard.World.Use

namespace Switchboard

variable {α : Type}

/-- The ways of the final section, for the pair of `b` and `id`: is the registration valid, was
    an object just resolved, and which. -/
inductive Settles (l : Ledger α) (b : BundleId) (id : Nat) (valid fresh : Bool) (o : Option α) :
    World.Settlement α → Prop
  | cached {x : α} (hvalid : valid = true) (hfresh : fresh = false) (ho : o = some x) :
      Settles l b id valid fresh o ⟨some x, [], l⟩
  /-- The use is gone. -/
  | missing {x : α} (hvalid : valid = true) (hfresh : fresh = true) (ho : o = some x) (hu : l.usage? b id = none) :
      Settles l b id valid fresh o ⟨none, [x], l⟩
  /-- Another object was cached meanwhile. -/
  | existing {x c : α} {u : Usage α} (hvalid : valid = true) (hfresh : fresh = true) (ho : o = some x)
      (hu : l.usage? b id = some u) (hc : u.object = some c) : Settles l b id valid fresh o ⟨some c, [x], l⟩
  | kept {x : α} {u : Usage α} {l' : Ledger α} (hvalid : valid = true) (hfresh : fresh = true) (ho : o = some x)
      (hc : u.object = none) (hl : l'.Sound) (he : l.Edit l' b id (some u) (some { u with object := some x })) :
      Settles l b id valid fresh o ⟨some x, [], l'⟩
  | lost (hno : valid = false ∨ o = none) (hu : l.usage? b id = none) :
      Settles l b id valid fresh o ⟨none, (o.filter fun _ => fresh).toList, l⟩
  /-- There is nothing to give, and one use of several is given up. -/
  | spent {u : Usage α} {l' : Ledger α} (hno : valid = false ∨ o = none) (hvalid : valid = true) (hc : 1 < u.count)
      (hl : l'.Sound) (he : l.Edit l' b id (some u) (some { u with count := u.count - 1 })) :
      Settles l b id valid fresh o ⟨none, (o.filter fun _ => fresh).toList, l'⟩
  | dropped {u : Usage α} {l' : Ledger α} (hno : valid = false ∨ o = none) (hc : valid = false ∨ u.count ≤ 1)
      (hl : l'.Sound) (he : l.Edit l' b id (some u) none) :
      Settles l b id valid fresh o ⟨none, (o.filter fun _ => fresh).toList ++ u.object.toList, l'⟩

variable {g : Registry α}

/-- However it ends, the registry stays in order. -/
theorem Settles.sound {b : BundleId} {id : Nat} {valid fresh : Bool} {o : Option α} {e : World.Settlement α}
    (hg : g.Sound) (hs : Settles g.ledger b id valid fresh o e) : Registry.Sound { g with ledger := e.ledger } := by
  have hknown : ∀ {u : Usage α} {l : Ledger α} {v : Option (Usage α)}, g.ledger.Edit l b id (some u) v →
      g.knows u.reference = true := fun he => hg.known b _ (Ledger.mem_of_usage? he.usage?_before).1
  cases hs with
  | cached => exact hg
  | missing => exact hg
  | existing => exact hg
  | lost => exact hg
  | kept _ _ _ _ hl he =>
    refine hg.edit hl he ?_
    rintro x ⟨⟩
    have := hknown he
    exact this
  | spent _ _ _ hl he =>
    refine hg.edit hl he ?_
    rintro x ⟨⟩
    have := hknown he
    exact this
  | dropped _ _ hl he =>
    refine hg.edit hl he ?_
    rintro x ⟨⟩

/-- Other pairs keep their entry. -/
theorem Settles.usage?_of_ne {l : Ledger α} {b : BundleId} {id : Nat} {valid fresh : Bool} {o : Option α}
    {e : World.Settlement α} (hs : Settles l b id valid fresh o e) {c : BundleId} {j : Nat} (hne : (c, j) ≠ (b, id)) :
    e.ledger.usage? c j = l.usage? c j := by
  cases hs with
  | kept _ _ _ _ _ he => exact he.usage?_of_ne hne
  | spent _ _ _ _ he => exact he.usage?_of_ne hne
  | dropped _ _ _ he => exact he.usage?_of_ne hne
  | _ => rfl

/-- Where there is no entry, none is made. -/
theorem Settles.ledger_eq {l : Ledger α} {b : BundleId} {id : Nat} {valid fresh : Bool} {o : Option α}
    {e : World.Settlement α} (hs : Settles l b id valid fresh o e) (hu : l.usage? b id = none) : e.ledger = l := by
  cases hs with
  | kept _ _ _ _ _ he => cases he.usage?_before.symm.trans hu
  | spent _ _ _ _ he => cases he.usage?_before.symm.trans hu
  | dropped _ _ _ he => cases he.usage?_before.symm.trans hu
  | _ => rfl

/-- Only a valid registration has an object granted. -/
theorem Settles.valid_of_object {l : Ledger α} {b : BundleId} {id : Nat} {valid fresh : Bool} {o : Option α}
    {e : World.Settlement α} (hs : Settles l b id valid fresh o e) (hobject : e.object.isSome) : valid = true := by
  cases hs with
  | cached hvalid => exact hvalid
  | existing hvalid => exact hvalid
  | kept hvalid => exact hvalid
  | _ => cases hobject

namespace World

/-- What the final section does when it has nothing to give. -/
theorem settles_release {l : Ledger α} (hl : l.Sound) (b : BundleId) (id : Nat) {valid : Bool} (fresh : Bool)
    {o : Option α} (hno : valid = false ∨ o = none) :
    Settles l b id valid fresh o (match l.release b id (!valid) with
      | (.flushed cached, ledger) => ⟨none, (o.filter fun _ => fresh).toList ++ cached.toList, ledger⟩
      | (_, ledger) => ⟨none, (o.filter fun _ => fresh).toList, ledger⟩) := by
  rcases Ledger.release_cases hl b id (!valid) with ⟨hu, h⟩ | ⟨u, hu, hforce, hc, h, hs, he⟩ | ⟨u, hu, hc, h, hs, he⟩
  · rw [h]
    exact .lost hno hu
  · have hpair : l.release b id (!valid) = (.decremented (u.count - 1), (l.release b id (!valid)).2) := Prod.ext h rfl
    rw [hpair]
    exact .spent hno (by simpa using hforce) hc hs he
  · have hpair : l.release b id (!valid) = (.flushed u.object, (l.release b id (!valid)).2) := Prod.ext h rfl
    rw [hpair]
    exact .dropped hno (by simpa using hc) hs he

/-- What it does with a fresh object of a valid registration. -/
theorem settles_store {l : Ledger α} (hl : l.Sound) (b : BundleId) (id : Nat) (x : α) :
    Settles l b id true true (some x) (match l.store b id x with
      | (.kept, ledger) => ⟨some x, [], ledger⟩
      | (.existing cached, ledger) => ⟨some cached, [x], ledger⟩
      | (.missing, ledger) => ⟨none, [x], ledger⟩) := by
  rcases Ledger.store_cases hl b id x with ⟨hu, h⟩ | ⟨u, c, hu, hc, h⟩ | ⟨u, hu, hc, h, hs, he⟩
  · rw [h]
    exact .missing rfl rfl rfl hu
  · rw [h]
    exact .existing rfl rfl rfl hu hc
  · have hpair : l.store b id x = (.kept, (l.store b id x).2) := Prod.ext h rfl
    rw [hpair]
    exact .kept rfl rfl rfl hc hs he

theorem settlement_settles (w : World α) (hl : g.ledger.Sound) (h : Handle) (b : BundleId) (ref : Reference)
    (fresh : Bool) (o : Option α) :
    Settles g.ledger b ref.id (w.isValid h) fresh o (w.settlement g h b ref fresh o) := by
  unfold settlement
  dsimp only
  cases hvalid : w.isValid h with
  | false =>
    have hrel := settles_release hl b ref.id fresh (o := o) (Or.inl rfl : false = false ∨ o = none)
    cases o <;> cases fresh <;> exact hrel
  | true =>
    cases o with
    | none => exact settles_release hl b ref.id fresh (Or.inr rfl)
    | some x =>
      cases fresh with
      | false => exact .cached rfl rfl rfl
      | true => exact settles_store hl b ref.id x

theorem settles_of_eq {w : World α} {h : Handle} {b : BundleId} {ref : Reference} {fresh : Bool} {o : Option α}
    {e : Settlement α} (hl : g.ledger.Sound) (he : e = w.settlement g h b ref fresh o) :
    Settles g.ledger b ref.id (w.isValid h) fresh o e := by
  rw [he]
  exact settlement_settles w hl h b ref fresh o

end World

end Switchboard
