/-
  Switchboard.Proofs.Table.Insertion — a look-up that inserts what it does not find.

  If the key is found, the slot that `getOrInsertM` gives is the one that a look-up reads
  (`Table.Reads`). If not, nobody looks again: the slot is the last of the chain that the hash
  selects, at the capacity of by then. That it holds the new entry, and that all others are where
  they were or where a doubling sent them (`Table.Inserts`), rests on the layout and not on the
  keying. A look-up may well miss the new entry: nothing says that a key is the same as itself.

  `getOrInsert_agrees`: the table is the one that a `put` leaves, and the value is made once or not
  at all. What is written to the slot shows there and nowhere else (`Table.Overwrites`).
-/

import Switchboard.Proofs.Table.Desk
import Switchboard.Proofs.Table.Shelf
import Switchboard.Table.Recipe

namespace Switchboard

open Desk (Act)

variable {κ ν : Type} {s : Keying κ}

namespace Table

variable {t t' : Table s ν} {l : List (Entry κ ν)} {k : κ} {p q : Slot} {v : ν}

/-! ## Writing to a slot -/

/-- A table and another that differs in the value in slot `p` alone. That value is `v`. -/
structure Overwrites (t t' : Table s ν) (p : Slot) (v : ν) : Prop where
  entries : ∀ q, t'.entry? q = if q = p then (t.entry? p).map fun e => { e with value := v } else t.entry? q
  capacity : t'.capacity = t.capacity
  size : t'.size = t.size
  limit : t'.limit = t.limit
  changes : t'.changes = t.changes

theorem overwrites_modify (t : Table s ν) (p : Slot) (v : ν) : t.Overwrites (t.modify p fun _ => v) p v where
  entries q := by
    rw [ Table.entry?, chain_modify]
    by_cases hq : q = p
    · subst hq
      simp [ Table.entry?]
    · rw [if_neg hq, Table.entry?]
      split
      case isTrue hb =>
        have hpos : p.pos ≠ q.pos := fun hpos => hq (by cases p; cases q; simp_all)
        rw [List.getElem?_modify_ne _ _ hpos]
      case isFalse => rfl
  capacity := capacity_modify ..
  size := rfl
  limit := rfl
  changes := rfl

/-! ## The slot of a key that is found -/

structure Reads (t : Table s ν) (k : κ) (p : Slot) : Prop where
  occupied : ∃ e, t.entry? p = some e
  found : t.find? k = t.entry? p
  written : ∀ v, (t.modify p fun _ => v).get? k = some v

theorem Lays.find?_adjust (h : Lays t l) (k : κ) (f : ν → ν) :
    (t.adjust k f).find? k = (t.find? k).map fun e => { e with value := f e.value } := by
  rw [(h.adjust k f).find?_eq, h.find?_eq]
  exact FirstMatch.find?_modify (f := fun e : Entry κ ν => { e with value := f e.value }) (fun _ => rfl) l

theorem Lays.reads (h : Lays t l) (hk : t.locate k = some p) : t.Reads k p := by
  have hfound : t.find? k = t.entry? p := by
    rw [Table.find?, hk]
    rfl
  have hsome : t.find? k ≠ none := by
    rw [ne_eq, find?_eq_none_iff, hk]
    exact Option.some_ne_none p
  obtain ⟨e, he⟩ := Option.ne_none_iff_exists'.mp hsome
  refine ⟨⟨e, hfound ▸ he⟩, hfound, fun v => ?_⟩
  have hwrite : t.modify p (fun _ => v) = t.adjust k fun _ => v := by rw [Table.adjust, hk]
  rw [hwrite, Table.get?, h.find?_adjust, he]
  rfl

/-! ## The slot of a new entry -/

/-- A table and another with one entry more, in the slot `p`. Without that entry a chain of the other is,
    in order, what of a chain of the first belongs there. -/
structure Inserts (t t' : Table s ν) (p : Slot) (e : Entry κ ν) : Prop where
  entry : t'.entry? p = some e
  others : ∀ i < t'.capacity,
    (t'.removeAt p).chain i = (t.chain (i % t.capacity)).filter fun d => bucketOf d.hash t'.capacity == i
  capacity : t'.capacity = if t.isFull then 2 * t.capacity else t.capacity
  size : t'.size = t.size + 1
  limit : t'.limit = t.limit
  changes : t'.changes = t.changes + 1

theorem capacity_reserve_eq (t : Table s ν) : t.reserve.capacity = if t.isFull then 2 * t.capacity else t.capacity := by
  unfold reserve
  split
  · exact capacity_grow t
  · rfl

/-- Whether or not the table doubles, an entry stays in its chain or goes to the new one of the two that
    the chain becomes. -/
theorem Lays.chain_reserve (h : Lays t l) {i : Nat} (hi : i < t.reserve.capacity) : t.reserve.chain i =
    (t.chain (i % t.capacity)).filter fun e => bucketOf e.hash t.reserve.capacity == i := by
  unfold Table.reserve at hi ⊢
  split at hi
  case isTrue hfull =>
    rw [capacity_grow] at hi
    rw [if_pos hfull, capacity_grow]
    exact chain_grow t hi
  case isFalse hfull =>
    rw [if_neg hfull, Nat.mod_eq_of_lt hi, h.chain i hi, List.filter_filter]
    simp

theorem Lays.bucket_lt_reserve (h : Lays t l) (k : κ) :
    bucketOf (s.hashOf k) t.reserve.capacity < t.reserve.capacity :=
  bucketOf_lt _ h.reserve.pos

def freshSlot (t : Table s ν) (k : κ) : Slot :=
  let b := bucketOf (s.hashOf k) t.reserve.capacity
  ⟨b, (t.reserve.chain b).length⟩

theorem Lays.lastSlot_insertNew (h : Lays t l) (k : κ) (v : ν) : (t.insertNew k v).lastSlot k = t.freshSlot k := by
  have hlt := h.bucket_lt_reserve k
  rw [Table.insertNew, lastSlot, freshSlot, capacity_append, chain_append _ _ hlt, if_pos rfl, List.length_append]
  rfl

/-- Without the new entry there is the table that had room made. -/
theorem chain_removeAt_fresh (t : Table s ν) (k : κ) (v : ν) {i : Nat} (hi : i < t.reserve.capacity) :
    ((t.insertNew k v).removeAt (t.freshSlot k)).chain i = t.reserve.chain i := by
  rw [chain_removeAt, Table.insertNew, chain_append _ _ hi, freshSlot]
  by_cases hb : bucketOf (s.hashOf k) t.reserve.capacity = i
  · subst hb
    simp [List.eraseIdx_append_of_length_le]
  · simp [hb]

theorem Lays.inserts (h : Lays t l) (k : κ) (v : ν) : t.Inserts (t.insertNew k v) (t.freshSlot k) ⟨s.hashOf k, k, v⟩ := by
  have hcapacity : (t.insertNew k v).capacity = t.reserve.capacity := capacity_append ..
  constructor
  · rw [← h.lastSlot_insertNew k v]
    exact occupant_lastSlot t h.pos k v
  · intro i hi
    rw [hcapacity] at hi ⊢
    rw [chain_removeAt_fresh t k v hi, h.chain_reserve hi]
  · rw [hcapacity, capacity_reserve_eq]
  all_goals
    rw [Table.insertNew, Table.reserve]
    split <;> rfl

end Table

/-! ## Look up or insert -/

namespace Desk

open Table

/-- A key that is found costs nothing, and its slot is the one that a look-up reads. A missing key is put with a
    value that is made once, and its slot is the new entry's, doubled or not. -/
theorem getOrInsert_agrees (s : Keying κ) (ν : Type) (capacity limit : Nat) (acts : List (Act κ ν)) (k : κ)
    {m : Type → Type} [Monad m] [LawfulMonad m] (make : m ν) :
    let t := ((start s ν capacity limit).run acts).2.table
    (t.contains k = true → ∃ p, t.getOrInsertM k make = pure (p, t) ∧ t.Reads k p ∧
      ∀ v, t.Overwrites (t.modify p fun _ => v) p v) ∧
    (t.contains k = false → ∃ p, t.getOrInsertM k make = (make >>= fun v => pure (p, (t.put k v).2)) ∧
      ∀ v, t.Inserts (t.put k v).2 p ⟨s.hashOf k, k, v⟩ ∧
        ∀ v', (t.put k v).2.Overwrites ((t.put k v).2.modify p fun _ => v') p v') := by
  intro t
  have hlays := ((shows_start s ν capacity limit).run acts).2.table.lays
  cases hloc : t.locate k with
  | some p =>
    refine ⟨fun _ => ⟨p, ?_, hlays.reads hloc, t.overwrites_modify p⟩, fun hmissing => ?_⟩
    · rw [getOrInsertM, hloc]
    · rw [contains, hloc] at hmissing
      cases hmissing
  | none =>
    have hput : ∀ v, (t.put k v).2 = t.insertNew k v := fun v => by rw [put, hloc]
    refine ⟨fun hfound => ?_, fun _ => ⟨t.freshSlot k, ?_, fun v => ⟨?_, overwrites_modify _ _⟩⟩⟩
    · rw [contains, hloc] at hfound
      cases hfound
    · rw [getOrInsertM, hloc]
      refine bind_congr fun v => ?_
      rw [hput, ← hlays.lastSlot_insertNew k v]
    · rw [hput]
      exact hlays.inserts k v

/-- One key is found. Another keying finds no key, and the table doubles to take a second entry for one: the
    look-up that follows misses both. -/
theorem getOrInsert_agrees_neverSame :
    let s : Keying Key := Recipe.keying ⟨.low, .exact, none⟩
    let s' : Keying Key := Recipe.keying ⟨.const 0, .never, none⟩
    let acts : List (Act Key Nat) := [.key (.int 1) (.put 10)]
    let make : StateM Nat Nat := fun n => (10 * n, n + 1)
    let t := ((start s Nat 1 8).run acts).2.table
    let t' := ((start s' Nat 1 8).run acts).2.table
    LawfulMonad (StateM Nat) ∧
    (t.contains (.int 1) = true ∧ ∃ p, t.getOrInsertM (.int 1) make = pure (p, t) ∧ t.Reads (.int 1) p ∧
      ∀ v, t.Overwrites (t.modify p fun _ => v) p v) ∧
    (t'.contains (.int 1) = false ∧
      ∃ p, t'.getOrInsertM (.int 1) make = (make >>= fun v => pure (p, (t'.put (.int 1) v).2)) ∧
        ∀ v, t'.Inserts (t'.put (.int 1) v).2 p ⟨s'.hashOf (.int 1), .int 1, v⟩ ∧
          ∀ v', (t'.put (.int 1) v).2.Overwrites ((t'.put (.int 1) v).2.modify p fun _ => v') p v') ∧
    (t'.getOrInsertM (.int 1) make 7).1.1 = ⟨0, 1⟩ ∧ (t'.getOrInsertM (.int 1) make 7).2 = 8 ∧
      t'.capacity = 1 ∧ (t'.getOrInsertM (.int 1) make 7).1.2.capacity = 2 ∧
      (t'.getOrInsertM (.int 1) make 7).1.2.toList = [(.int 1, 10), (.int 1, 70)] ∧
      (t'.getOrInsertM (.int 1) make 7).1.2.get? (.int 1) = none := by
  intro s s' acts make t t'
  have hfound : t.contains (.int 1) = true := by decide +kernel
  have hmissing : t'.contains (.int 1) = false := by decide +kernel
  exact ⟨inferInstance, ⟨hfound, (getOrInsert_agrees s Nat 1 8 acts (.int 1) make).1 hfound⟩,
    ⟨hmissing, (getOrInsert_agrees s' Nat 1 8 acts (.int 1) make).2 hmissing⟩,
    by decide +kernel, by decide +kernel, by decide +kernel, by decide +kernel, by decide +kernel, by decide +kernel⟩

end Desk

end Switchboard
