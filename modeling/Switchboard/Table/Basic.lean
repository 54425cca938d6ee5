/-
  Switchboard.Table.Basic — a chained hash table.

  The buckets are chains of entries, a chain in order of insertion. An entry keeps the hash
  of its key; its bucket is that hash modulo the capacity, which is a power of two. An
  insertion that would take the table over three quarters of its capacity, rounded up, first
  doubles it, until the limit is reached; then chains grow instead. Doubling splits every
  chain in two and keeps the order in each half.

  `changes` counts the structural changes: an insertion, a removal, a `retain` that dropped
  something, a `clear`. Replacing a value is none. Cursors (`Switchboard.Table.Cursor`)
  compare it to learn that a table moved under them.

  An entry is addressed by its `Slot`, a bucket and a place in the chain. Keyed operations
  are `locate` followed by an operation on the slot.
-/

import Switchboard.Table.Keying

namespace Switchboard

structure Entry (κ ν : Type) where
  /-- The hash of the key, spread. -/
  hash : UInt32
  key : κ
  value : ν

structure Slot where
  bucket : Nat
  pos : Nat
  deriving DecidableEq, Repr

structure Table {κ : Type} (s : Keying κ) (ν : Type) where
  buckets : Array (List (Entry κ ν))
  size : Nat
  /-- The capacity past which the table does not grow. -/
  limit : Nat
  /-- The number of structural changes so far. -/
  changes : Nat

namespace Table

def defaultCapacity : Nat := 16

def maxCapacity : Nat := 1 <<< 30

/-- The least power of two that is at least `n`. -/
def powerAbove (n : Nat) : Nat := if n ≤ 1 then 1 else 1 <<< ((n - 1).log2 + 1)

def effectiveLimit (limit : Nat) : Nat := powerAbove (min (max limit 1) maxCapacity)

def startCapacity (capacity limit : Nat) : Nat :=
  powerAbove (min (max capacity 1) (effectiveLimit limit))

/-- How many entries a table of this capacity may hold before it doubles. -/
def load (capacity : Nat) : Nat := (3 * capacity + 3) / 4

def bucketOf (hash : UInt32) (capacity : Nat) : Nat := hash.toNat % capacity

variable {κ ν : Type} {s : Keying κ}

/-! ## Construction -/

def withLimit (s : Keying κ) (ν : Type) (capacity limit : Nat) : Table s ν :=
  ⟨Array.replicate (startCapacity capacity limit) [], 0, effectiveLimit limit, 0⟩

def withCapacity (s : Keying κ) (ν : Type) (capacity : Nat) : Table s ν :=
  withLimit s ν capacity maxCapacity

def empty (s : Keying κ) (ν : Type) : Table s ν := withCapacity s ν defaultCapacity

/-! ## Reading -/

def capacity (t : Table s ν) : Nat := t.buckets.size

def isEmpty (t : Table s ν) : Bool := t.size == 0

def chain (t : Table s ν) (i : Nat) : List (Entry κ ν) :=
  -- The guard changes no result (`chain_eq`): a comparison of terms stops at it and does not
  -- work out the hash in the index.
  if t.buckets.isEmpty then [] else t.buckets[i]?.getD []

theorem chain_eq (t : Table s ν) (i : Nat) : t.chain i = t.buckets[i]?.getD [] := by
  unfold chain
  split
  case isTrue h => simp [Array.isEmpty_iff.mp h]
  case isFalse => rfl

def entries (t : Table s ν) : List (Entry κ ν) := t.buckets.toList.flatten

def toList (t : Table s ν) : List (κ × ν) := t.entries.map fun e => (e.key, e.value)

def keys (t : Table s ν) : List κ := t.entries.map (·.key)

def values (t : Table s ν) : List ν := t.entries.map (·.value)

/-- Does a stored entry answer to the key `k` of hash `hash`? Hashes are compared first. -/
def answers (s : Keying κ) (hash : UInt32) (k : κ) (e : Entry κ ν) : Bool :=
  e.hash == hash && s.same e.key k

def locate (t : Table s ν) (k : κ) : Option Slot :=
  let hash := s.hashOf k
  let i := bucketOf hash t.capacity
  ((t.chain i).findIdx? (answers s hash k)).map (Slot.mk i)

def entry? (t : Table s ν) (p : Slot) : Option (Entry κ ν) := (t.chain p.bucket)[p.pos]?

def find? (t : Table s ν) (k : κ) : Option (Entry κ ν) := (t.locate k).bind t.entry?

def get? (t : Table s ν) (k : κ) : Option ν := (t.find? k).map (·.value)

/-- The stored key, which need not be `k` itself, and the value. -/
def getEntry? (t : Table s ν) (k : κ) : Option (κ × ν) := (t.find? k).map fun e => (e.key, e.value)

def contains (t : Table s ν) (k : κ) : Bool := (t.locate k).isSome

def containsValue [BEq ν] (t : Table s ν) (v : ν) : Bool := t.values.any (· == v)

/-! ## Writing values -/

def modify (t : Table s ν) (p : Slot) (f : ν → ν) : Table s ν :=
  { t with buckets := t.buckets.modify p.bucket fun c =>
      c.modify p.pos fun e => { e with value := f e.value } }

def adjust (t : Table s ν) (k : κ) (f : ν → ν) : Table s ν :=
  match t.locate k with
  | some p => t.modify p f
  | none => t

def mapValues (t : Table s ν) (f : ν → ν) : Table s ν :=
  { t with buckets := t.buckets.map fun c => c.map fun e => { e with value := f e.value } }

/-! ## Insertion -/

def isFull (t : Table s ν) : Bool :=
  decide (t.capacity < t.limit) && decide (load t.capacity < t.size + 1)

/-- Doubles the capacity: bucket `i` keeps, in order, what of bucket `i % capacity` belongs
    there. -/
def grow (t : Table s ν) : Table s ν :=
  { t with buckets := Array.ofFn fun i : Fin (2 * t.capacity) =>
      (t.chain (i % t.capacity)).filter fun e => bucketOf e.hash (2 * t.capacity) == i }

def reserve (t : Table s ν) : Table s ν := if t.isFull then t.grow else t

def append (t : Table s ν) (e : Entry κ ν) : Table s ν :=
  { t with buckets := t.buckets.modify (bucketOf e.hash t.capacity) (· ++ [e]),
           size := t.size + 1, changes := t.changes + 1 }

def insertNew (t : Table s ν) (k : κ) (v : ν) : Table s ν :=
  t.reserve.append ⟨s.hashOf k, k, v⟩

/-- Inserts or replaces; also gives the value before. A key that is present stays as it is
    stored. -/
def put (t : Table s ν) (k : κ) (v : ν) : Option ν × Table s ν :=
  match t.locate k with
  | some p => ((t.entry? p).map (·.value), t.modify p fun _ => v)
  | none => (none, t.insertNew k v)

def lastSlot (t : Table s ν) (k : κ) : Slot :=
  let i := bucketOf (s.hashOf k) t.capacity
  ⟨i, (t.chain i).length - 1⟩

/-- The slot of a key. If the key is missing, `make` runs and its value is inserted first. -/
def getOrInsertM {m : Type → Type} [Monad m] (t : Table s ν) (k : κ) (make : m ν) :
    m (Slot × Table s ν) :=
  match t.locate k with
  | some p => pure (p, t)
  | none => do
    let v ← make
    let t := t.insertNew k v
    pure (t.lastSlot k, t)

def getOrInsert (t : Table s ν) (k : κ) (v : ν) : Slot × Table s ν :=
  Id.run (t.getOrInsertM k (pure v))

/-! ## Removal -/

/-- Takes the entry out of a slot; what follows in its chain moves up. -/
def removeAt (t : Table s ν) (p : Slot) : Table s ν :=
  { t with buckets := t.buckets.modify p.bucket (·.eraseIdx p.pos),
           size := t.size - 1, changes := t.changes + 1 }

def removeEntry (t : Table s ν) (k : κ) : Option (κ × ν) × Table s ν :=
  match t.locate k with
  | some p => ((t.entry? p).map fun e => (e.key, e.value), t.removeAt p)
  | none => (none, t)

def remove (t : Table s ν) (k : κ) : Option ν × Table s ν :=
  let (e, t) := t.removeEntry k
  (e.map (·.2), t)

def clear (t : Table s ν) : Table s ν :=
  { t with buckets := t.buckets.map fun _ => [], size := 0, changes := t.changes + 1 }

section Retain

variable {m : Type → Type} [Monad m]

/-- Asks `keep` of each entry of a chain in turn: `none` drops the entry, a value stays in it. -/
def retainChainM (keep : κ → ν → m (Option ν)) : List (Entry κ ν) → m (List (Entry κ ν))
  | [] => pure []
  | e :: c => do
    let kept ← keep e.key e.value
    let c ← retainChainM keep c
    pure (match kept with
      | some v => { e with value := v } :: c
      | none => c)

def retainM (t : Table s ν) (keep : κ → ν → m (Option ν)) : m (Table s ν) := do
  let chains ← t.buckets.toList.mapM (retainChainM keep)
  let size := chains.flatten.length
  pure { t with buckets := chains.toArray, size := size,
                changes := if size = t.size then t.changes else t.changes + 1 }

end Retain

def retain (t : Table s ν) (keep : κ → ν → Option ν) : Table s ν :=
  Id.run (t.retainM fun k v => pure (keep k v))

/-! ## Text -/

def render (t : Table s ν) (key : κ → String) (value : ν → String) : String :=
  "\x7b" ++ ", ".intercalate (t.toList.map fun e => key e.1 ++ ": " ++ value e.2) ++ "\x7d"

end Table

end Switchboard
