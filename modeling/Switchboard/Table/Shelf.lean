/-
  Switchboard.Table.Shelf — a table of lists, none of them empty.

  A shelf gives every key a list, the empty one to a key it does not store. `editAt` works on
  the list of a key and creates its slot first; `trimAt` keeps some members of a list and
  drops the slot of a list that has none left.
-/

import Switchboard.Table.Basic

namespace Switchboard

variable {κ : Type} {s : Keying κ} {α : Type}

abbrev Shelf (s : Keying κ) (α : Type) : Type := Table s (List α)

namespace Shelf

def listAt (t : Shelf s α) (k : κ) : List α := (t.get? k).getD []

def members (t : Shelf s α) : List α := t.values.flatten

/-- Applies `f` to the list of a key, which it stores if it did not. -/
def editAt (t : Shelf s α) (k : κ) (f : List α → List α) : Shelf s α :=
  let (p, t) := t.getOrInsert k []
  t.modify p f

def pushAt (t : Shelf s α) (k : κ) (x : α) : Shelf s α := t.editAt k (· ++ [x])

def trimAt (t : Shelf s α) (k : κ) (keep : α → Bool) : Shelf s α :=
  let t := t.adjust k (·.filter keep)
  match t.get? k with
  | some [] => (t.remove k).2
  | _ => t

end Shelf

end Switchboard
