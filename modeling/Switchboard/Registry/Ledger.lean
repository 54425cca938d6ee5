/-
  Switchboard.Registry.Ledger — who uses what.

  One entry for each pair of a bundle and a reference id, with the uses that were taken and
  not given back, and the object that was resolved for the pair. An entry goes when its count
  reaches zero, and a bundle's list with its last entry. Entries are told apart by bundle and
  reference id alone.
-/

import Switchboard.Registry.Basic

namespace Switchboard

structure Usage (α : Type) where
  /-- The reference the first use was taken by. -/
  reference : Reference
  count : Nat
  object : Option α

structure Ledger (α : Type) where
  inUse : Shelf Keying.bundle (Usage α)

inductive Stored (α : Type) where
  | kept
  /-- Another object was cached before. -/
  | existing (cached : α)
  | missing

inductive Released (α : Type) where
  | notFound
  /-- This many uses are left. -/
  | decremented (left : Nat)
  /-- The entry is gone, and this is the object it had cached. -/
  | flushed (cached : Option α)

namespace Ledger

variable {α : Type}

def countLimit : Nat := 1 <<< 32 - 1

def withCapacity (capacity : Nat) : Ledger α := ⟨Table.withCapacity _ _ capacity⟩

/-! ## Queries -/

def usage? (l : Ledger α) (b : BundleId) (id : Nat) : Option (Usage α) :=
  (l.inUse.listAt b).find? (·.reference.id == id)

def count? (l : Ledger α) (b : BundleId) (id : Nat) : Option Nat := (l.usage? b id).map (·.count)

/-- The references a bundle uses, in the order their entries were made. -/
def references (l : Ledger α) (b : BundleId) : List Reference :=
  (l.inUse.listAt b).map (·.reference)

def bundles (l : Ledger α) (id : Nat) : List BundleId :=
  (l.inUse.toList.filter fun e => e.2.any (·.reference.id == id)).map (·.1)

/-- Each bundle and reference id whose entry was made for this registration. -/
def holders (l : Ledger α) (h : Handle) : List (BundleId × Nat) :=
  l.inUse.toList.flatMap fun e =>
    (e.2.filter (·.reference.target == h)).map fun u => (e.1, u.reference.id)

/-! ## Changes -/

def updateIn (id : Nat) (f : Usage α → Usage α) (us : List (Usage α)) : List (Usage α) :=
  us.map fun u => if u.reference.id == id then f u else u

def Usage.addUse (u : Usage α) : Usage α := { u with count := min (u.count + 1) countLimit }

def addUse (r : Reference) (us : List (Usage α)) : List (Usage α) :=
  if us.any (·.reference.id == r.id) then updateIn r.id Usage.addUse us
  else us ++ [⟨r, 1, none⟩]

/-- Counts one more use; gives the object cached for the pair. -/
def acquire (l : Ledger α) (b : BundleId) (r : Reference) : Option α × Ledger α :=
  ((l.usage? b r.id).bind (·.object), ⟨l.inUse.editAt b (addUse r)⟩)

def store (l : Ledger α) (b : BundleId) (id : Nat) (o : α) : Stored α × Ledger α :=
  match l.usage? b id with
  | none => (.missing, l)
  | some u =>
    match u.object with
    | some cached => (.existing cached, l)
    | none => (.kept, ⟨l.inUse.adjust b (updateIn id fun u => { u with object := some o })⟩)

def flush (l : Ledger α) (b : BundleId) (id : Nat) : Ledger α :=
  ⟨l.inUse.trimAt b (·.reference.id != id)⟩

/-- Counts one use fewer. The entry goes when none is left, or at once where `force` says so. -/
def release (l : Ledger α) (b : BundleId) (id : Nat) (force : Bool) : Released α × Ledger α :=
  match l.usage? b id with
  | none => (.notFound, l)
  | some u =>
    if !force && decide (0 < u.count - 1) then
      (.decremented (u.count - 1),
        ⟨l.inUse.adjust b (updateIn id fun u => { u with count := u.count - 1 })⟩)
    else (.flushed u.object, l.flush b id)

structure Reclaimed (α : Type) where
  uses : Nat
  /-- The objects that were cached, and for which bundle. -/
  objects : List (BundleId × α)
  ledger : Ledger α

/-- At most `n` releases of a pair, up to the one that removes its entry. -/
def reclaimN : Nat → Ledger α → BundleId → Nat → Reclaimed α
  | 0, l, _, _ => ⟨0, [], l⟩
  | n + 1, l, b, id =>
    match l.release b id false with
    | (.notFound, l) => ⟨0, [], l⟩
    | (.decremented _, l) => let d := reclaimN n l b id; { d with uses := d.uses + 1 }
    | (.flushed cached, l) => ⟨1, cached.toList.map (b, ·), l⟩

/-- Releases a pair until its entry is gone, which takes as many releases as it has uses. -/
def reclaim (l : Ledger α) (b : BundleId) (id : Nat) : Reclaimed α :=
  reclaimN ((l.count? b id).getD 0 + 1) l b id

def drain (l : Ledger α) (h : Handle) : Reclaimed α :=
  (l.holders h).foldl (fun d p =>
    let e := d.ledger.reclaim p.1 p.2
    ⟨d.uses + e.uses, d.objects ++ e.objects, e.ledger⟩) ⟨0, [], l⟩

end Ledger

end Switchboard
