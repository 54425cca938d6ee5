/-
  Switchboard.Table.Desk — a table and the cursors made on it, in the hands of a client.

  A client asks something of one key (`KeyAct`), goes through all entries with a closure, makes
  cursors, steps them and removes through them (`Act`). It does so in any order, and `run` makes
  a list of acts one after the other.

  A closure may remember what it was asked. It is given the whole of it, the present question
  last, and so any closure that decides by itself is one of these.
-/

import Switchboard.Table.Cursor

namespace Switchboard

/-- A table, and its cursors in the order they were made. -/
structure Desk {κ : Type} (s : Keying κ) (ν : Type) where
  table : Table s ν
  cursors : List Cursor

namespace Desk

inductive KeyAct (ν : Type) where
  | put (v : ν)
  | get
  | getEntry
  | contains
  | adjust (f : ν → ν)
  /-- Writes what `f` makes of the value; a key that is missing is inserted first, with the value `v`. -/
  | getOrInsert (v : ν) (f : ν → ν)
  | remove
  | removeEntry

inductive Act (κ ν : Type) where
  | key (k : κ) (a : KeyAct ν)
  | retain (keep : List (κ × ν) → Option ν)
  | clear
  | rewrite (write : List ν → ν)
  | cursor
  | clone (c : Nat)
  | next (c : Nat)
  /-- Removes what the cursor yielded last. -/
  | strike (c : Nat)

inductive Result (κ ν : Type) where
  | value (v : Option ν)
  | entry (e : Option (κ × ν))
  | flag (b : Bool)
  | visited (es : List (κ × ν))
  | struck (e : κ × ν)
  | refused (e : CursorError)
  | done
  deriving DecidableEq

variable {κ ν : Type} {s : Keying κ}

/-- Asks a closure that remembers. -/
def asked {β γ : Type} (f : List β → γ) (x : β) : StateM (List β) γ :=
  fun seen => (f (seen ++ [x]), seen ++ [x])

section Write

variable {m : Type → Type} [Monad m]

def writeM (f : ν → m ν) (e : Entry κ ν) : m (Entry κ ν) := do
  let v ← f e.value
  pure { e with value := v }

def mapValuesM (t : Table s ν) (f : ν → m ν) : m (Table s ν) := do
  let chains ← t.buckets.toList.mapM (·.mapM (writeM f))
  pure { t with buckets := chains.toArray }

end Write

def keyed (t : Table s ν) (k : κ) : KeyAct ν → Result κ ν × Table s ν
  | .put v =>
    let (old, t) := t.put k v
    (.value old, t)
  | .get => (.value (t.get? k), t)
  | .getEntry => (.entry (t.getEntry? k), t)
  | .contains => (.flag (t.contains k), t)
  | .adjust f => (.value (t.get? k), t.adjust k f)
  | .getOrInsert v f =>
    let (p, t) := t.getOrInsert k v
    (.value ((t.entry? p).map (·.value)), t.modify p f)
  | .remove =>
    let (old, t) := t.remove k
    (.value old, t)
  | .removeEntry =>
    let (e, t) := t.removeEntry k
    (.entry e, t)

/-- Does one act. A client has no cursor but those that were made. -/
def act (d : Desk s ν) : Act κ ν → Result κ ν × Desk s ν
  | .key k a =>
    let (r, t) := keyed d.table k a
    (r, { d with table := t })
  | .retain keep =>
    let (t, seen) := (d.table.retainM fun k v => asked keep (k, v)).run []
    (.visited seen, { d with table := t })
  | .clear => (.done, { d with table := d.table.clear })
  | .rewrite write => (.done, { d with table := ((mapValuesM d.table (asked write)).run []).1 })
  | .cursor => (.done, { d with cursors := d.cursors ++ [d.table.cursor] })
  | .clone c => (.done, { d with cursors := d.cursors ++ d.cursors[c]?.toList })
  | .next c =>
    match d.cursors[c]? with
    | none => (.done, d)
    | some cur =>
      let (e, cur) := cur.next d.table
      (.entry e, { d with cursors := d.cursors.set c cur })
  | .strike c =>
    match d.cursors[c]? with
    | none => (.done, d)
    | some cur =>
      match cur.remove d.table with
      | .ok (e, cur, t) => (.struck e, { d with table := t, cursors := d.cursors.set c cur })
      | .error e => (.refused e, d)

def run (d : Desk s ν) : List (Act κ ν) → List (Result κ ν) × Desk s ν
  | [] => ([], d)
  | a :: as =>
    let (r, d) := d.act a
    let (rs, d) := d.run as
    (r :: rs, d)

def start (s : Keying κ) (ν : Type) (capacity limit : Nat) : Desk s ν := ⟨.withLimit s ν capacity limit, []⟩

end Desk

end Switchboard
