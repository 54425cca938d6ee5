/-
  Switchboard.Table.Cursor — a detached position in a table, which fails fast.

  A cursor holds no table: the table may change between two steps. It remembers the count of
  structural changes it expects, and once the table shows another count it yields nothing
  more (`next`) and removes nothing (`remove`). Its own removals keep it valid: it then
  expects the new count, and stands where the successor of the removed entry moved.
-/

import Switchboard.Table.Basic

namespace Switchboard

inductive CursorError where
  /-- The table was changed behind the cursor. -/
  | stale (expected actual : Nat)
  /-- There is no entry last yielded and still in place. -/
  | noEntry
  deriving DecidableEq, Repr

def CursorError.message : CursorError → String
  | stale expected actual =>
    "concurrent modification: cursor expected mod count " ++ toString expected ++
      ", table is at " ++ toString actual
  | noEntry => "cursor has no current entry"

structure Cursor where
  expected : Nat
  start : Slot
  /-- The entry last yielded, until it is removed. -/
  current : Option Slot
  deriving DecidableEq, Repr

variable {κ ν : Type} {s : Keying κ}

def Table.cursor (t : Table s ν) : Cursor := ⟨t.changes, ⟨0, 0⟩, none⟩

namespace Cursor

def isStale (c : Cursor) (t : Table s ν) : Bool := t.changes != c.expected

/-- The first entry at or after a place, in chains of which the first is bucket `bucket`;
    else the place after the last chain. -/
def seek : List (List (Entry κ ν)) → Nat → Nat → Slot × Option (Entry κ ν)
  | [], bucket, pos => (⟨bucket, pos⟩, none)
  | es :: chains, bucket, pos =>
    match es[pos]? with
    | some e => (⟨bucket, pos⟩, some e)
    | none => seek chains (bucket + 1) 0

def next (c : Cursor) (t : Table s ν) : Option (κ × ν) × Cursor :=
  if c.isStale t then (none, { c with current := none })
  else
    match seek (t.buckets.toList.drop c.start.bucket) c.start.bucket c.start.pos with
    | (p, some e) => (some (e.key, e.value), { c with start := ⟨p.bucket, p.pos + 1⟩, current := some p })
    | (p, none) => (none, { c with start := p, current := none })

def remove (c : Cursor) (t : Table s ν) : Except CursorError ((κ × ν) × Cursor × Table s ν) :=
  if c.isStale t then .error (.stale c.expected t.changes)
  else
    match c.current.bind fun p => (t.entry? p).map fun e => (p, e) with
    | none => .error .noEntry
    | some (p, e) =>
      let t := t.removeAt p
      .ok ((e.key, e.value), { expected := t.changes, start := { c.start with pos := p.pos }, current := none }, t)

def sweepN (drop : κ → ν → Bool) : Nat → Cursor → Table s ν → List (κ × ν) × Cursor × Table s ν
  | 0, c, t => ([], c, t)
  | n + 1, c, t =>
    match c.next t with
    | (none, c) => ([], c, t)
    | (some (k, v), c) =>
      let (c, t) :=
        if drop k v then
          match c.remove t with
          | .ok (_, c, t) => (c, t)
          | .error _ => (c, t)
        else (c, t)
      let (visited, c, t) := sweepN drop n c t
      ((k, v) :: visited, c, t)

/-- Steps a cursor to its end and removes, through it, the entries that `drop` picks. Gives
    what it visited. A table has no more entries to visit than its buckets hold, so the
    last of these steps is the one that yields nothing. -/
def sweep (c : Cursor) (t : Table s ν) (drop : κ → ν → Bool) : List (κ × ν) × Cursor × Table s ν :=
  sweepN drop (t.entries.length + 1) c t

end Cursor

end Switchboard
