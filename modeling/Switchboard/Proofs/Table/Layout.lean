/-
  Switchboard.Proofs.Table.Layout — a table as the list of its entries.

  Under any keying, lawful or not, a table is laid out from one list: its live entries in
  the order of their insertion (`Lays`). Bucket `i` holds what of the list falls into it, in
  the list's order, so capacity and doubling show in no keyed operation:
  - a look-up is a scan of the list for the first entry that answers (`Lays.find?_eq`);
  - a replacement modifies that entry in place (`Lays.adjust`), a removal takes it out
    (`Lays.removeEntry`), and an insertion appends to the list (`Lays.insertNew`);
  - the table's own order of entries is a permutation of the list (`Lays.entries_perm`).
-/

import Switchboard.Table.Shelf

namespace Switchboard

/-! ## Lists: the first member a test picks -/

namespace FirstMatch

variable {β : Type} {p q : β → Bool} {f : β → β}

theorem find?_filter_of_imp (h : ∀ e, p e = true → q e = true) (l : List β) :
    (l.filter q).find? p = l.find? p := by
  rw [List.find?_filter]
  congr 1
  funext e
  cases hp : p e
  · simp
  · simp [h e hp]

theorem filter_modify (hpq : ∀ e, p e = true → q e = true) (hf : ∀ e, q (f e) = q e) (l : List β) :
    (l.modify (l.findIdx p) f).filter q = (l.filter q).modify ((l.filter q).findIdx p) f := by
  induction l with
  | nil => rfl
  | cons e l ih =>
    by_cases hp : p e = true
    · have hq := hpq e hp
      simp [List.findIdx_cons, hp, hq, hf]
    · by_cases hq : q e = true
      · simp [List.findIdx_cons, hp, hq, ih]
      · simp [List.findIdx_cons, hp, hq, ih]

/-- A test that the modified entry fails sees no change. -/
theorem filter_modify_of_not (hpq : ∀ e, p e = true → q e = false) (hf : ∀ e, q (f e) = q e) (l : List β) :
    (l.modify (l.findIdx p) f).filter q = l.filter q := by
  induction l with
  | nil => rfl
  | cons e l ih =>
    by_cases hp : p e = true
    · have hq := hpq e hp
      simp [List.findIdx_cons, hp, hq, hf]
    · simp [List.findIdx_cons, hp, List.filter_cons, ih]

theorem filter_eraseP (hpq : ∀ e, p e = true → q e = true) (l : List β) :
    (l.eraseP p).filter q = (l.filter q).eraseP p := by
  induction l with
  | nil => rfl
  | cons e l ih =>
    by_cases hp : p e = true
    · simp [hp, hpq e hp]
    · by_cases hq : q e = true
      · simp [hp, hq, ih]
      · simp [hp, hq, ih]

theorem filter_eraseP_of_not (hpq : ∀ e, p e = true → q e = false) (l : List β) :
    (l.eraseP p).filter q = l.filter q := by
  induction l with
  | nil => rfl
  | cons e l ih =>
    by_cases hp : p e = true
    · simp [hp, hpq e hp]
    · simp [hp, List.filter_cons, ih]

theorem modify_findIdx_of_none {l : List β} (h : l.findIdx? p = none) (f : β → β) :
    l.modify (l.findIdx p) f = l := by
  have hlen : l.findIdx p = l.length := List.findIdx_eq_length.mpr (List.findIdx?_eq_none_iff.mp h)
  exact List.modify_eq_self (by omega)

theorem modify_concat (l : List β) (e : β) : (l ++ [e]).modify l.length f = l ++ [f e] := by
  induction l with
  | nil => rfl
  | cons d l ih => simp [ih]

/-- Grouping a list by a bounded number keeps all of it. -/
theorem flatMap_filter_perm (b : β → Nat) (l : List β) (n : Nat) :
    ((List.range n).flatMap fun i => l.filter fun e => b e == i).Perm (l.filter fun e => decide (b e < n)) := by
  induction n with
  | zero => simp
  | succ n ih =>
    rw [List.range_succ, List.flatMap_append]
    have hsplit := List.filter_append_perm (fun e => decide (b e < n)) (l.filter fun e => decide (b e < n + 1))
    have hlow : ((l.filter fun e => decide (b e < n + 1)).filter fun e => decide (b e < n)) =
        l.filter fun e => decide (b e < n) := by
      rw [List.filter_filter]
      refine List.filter_congr fun e _ => ?_
      simp only [← Bool.decide_and, decide_eq_decide]
      omega
    have hlast : ((l.filter fun e => decide (b e < n + 1)).filter fun e => !decide (b e < n)) =
        l.filter fun e => b e == n := by
      rw [List.filter_filter]
      refine List.filter_congr fun e _ => ?_
      rw [Bool.eq_iff_iff]
      simp only [Bool.and_eq_true, Bool.not_eq_true', decide_eq_false_iff_not, decide_eq_true_eq, beq_iff_eq]
      omega
    rw [hlow, hlast] at hsplit
    simpa using (ih.append_right _).trans hsplit

end FirstMatch

namespace Table

variable {κ ν : Type} {s : Keying κ} {t : Table s ν} {l : List (Entry κ ν)}

/-! ## The layout of a list -/

/-- The table is what the list gives when its entries are put into their buckets in turn. -/
structure Lays (t : Table s ν) (l : List (Entry κ ν)) : Prop where
  pos : 0 < t.capacity
  chain : ∀ i < t.capacity, t.chain i = l.filter fun e => bucketOf e.hash t.capacity == i
  size : t.size = l.length

theorem powerAbove_pos (n : Nat) : 0 < powerAbove n := by
  unfold powerAbove
  split
  · omega
  · rw [Nat.one_shiftLeft]
    exact Nat.two_pow_pos _

theorem bucketOf_lt (h : UInt32) {c : Nat} (hc : 0 < c) : bucketOf h c < c := Nat.mod_lt _ hc

theorem lays_withLimit (s : Keying κ) (ν : Type) (c m : Nat) : Lays (withLimit s ν c m) [] := by
  refine ⟨?_, fun i hi => ?_, rfl⟩
  · simpa [withLimit, Table.capacity, startCapacity] using powerAbove_pos _
  · have hi' : i < startCapacity c m := by simpa [withLimit, Table.capacity] using hi
    simp [chain_eq, withLimit, hi']

theorem lays_withCapacity (s : Keying κ) (ν : Type) (c : Nat) : Lays (withCapacity s ν c) [] :=
  lays_withLimit s ν c maxCapacity

/-- Only entries of the bucket that `k` selects answer to `k`. -/
theorem bucketOf_of_answers {hash : UInt32} {k : κ} {e : Entry κ ν} (h : answers s hash k e = true) (c : Nat) :
    bucketOf e.hash c = bucketOf hash c := by
  simp only [answers, Bool.and_eq_true, beq_iff_eq] at h
  rw [h.1]

/-! ## Look-up -/

theorem find?_eq_chain (t : Table s ν) (k : κ) :
    t.find? k = (t.chain (bucketOf (s.hashOf k) t.capacity)).find? (answers s (s.hashOf k) k) := by
  rw [List.find?_eq_bind_findIdx?_getElem?]
  simp only [Table.find?, Table.locate]
  cases (t.chain (bucketOf (s.hashOf k) t.capacity)).findIdx? (answers s (s.hashOf k) k) <;> rfl

theorem Lays.find?_eq (h : Lays t l) (k : κ) : t.find? k = l.find? (answers s (s.hashOf k) k) := by
  rw [find?_eq_chain, h.chain _ (bucketOf_lt _ h.pos)]
  exact FirstMatch.find?_filter_of_imp (fun e he => by simp [bucketOf_of_answers he]) l

theorem find?_eq_none_iff (t : Table s ν) (k : κ) : t.find? k = none ↔ t.locate k = none := by
  rw [find?_eq_chain, List.find?_eq_none]
  simp only [Table.locate, Option.map_eq_none_iff, List.findIdx?_eq_none_iff, Bool.not_eq_true]

/-! ## Changes in one bucket -/

theorem chain_modifyBucket (t : Table s ν) (b : Nat) (f : List (Entry κ ν) → List (Entry κ ν)) (n c : Nat) {i : Nat}
    (hi : i < t.capacity) :
    ({ t with buckets := t.buckets.modify b f, size := n, changes := c } : Table s ν).chain i =
      if b = i then f (t.chain i) else t.chain i := by
  obtain ⟨c, hc⟩ : ∃ c, t.buckets[i]? = some c := ⟨_, Array.getElem?_eq_getElem hi⟩
  simp only [chain_eq, Array.getElem?_modify, hc]
  split <;> rfl

/-- Beyond the last bucket there is no chain. -/
theorem chain_of_le (t : Table s ν) {i : Nat} (hi : t.capacity ≤ i) : t.chain i = [] := by
  rw [chain_eq, Array.getElem?_eq_none hi]
  rfl

@[simp] theorem capacity_modify (t : Table s ν) (p : Slot) (f : ν → ν) : (t.modify p f).capacity = t.capacity := by
  simp [Table.modify, Table.capacity]

theorem chain_modify (t : Table s ν) (p : Slot) (f : ν → ν) (i : Nat) : (t.modify p f).chain i =
    if p.bucket = i then (t.chain i).modify p.pos fun e => { e with value := f e.value } else t.chain i := by
  by_cases hi : i < t.capacity
  · exact chain_modifyBucket t p.bucket _ t.size t.changes hi
  · have hle := Nat.le_of_not_lt hi
    rw [chain_of_le t hle, chain_of_le (t.modify p f) (by simpa using hle)]
    simp

/-- Replacing values keeps the layout, for it touches neither hash nor place. -/
theorem Lays.adjust (h : Lays t l) (k : κ) (f : ν → ν) :
    Lays (t.adjust k f)
      (l.modify (l.findIdx (answers s (s.hashOf k) k)) fun e => { e with value := f e.value }) := by
  let p := answers (ν := ν) s (s.hashOf k) k
  let b := bucketOf (s.hashOf k) t.capacity
  have hc : t.chain b = l.filter fun e => bucketOf e.hash t.capacity == b := h.chain b (bucketOf_lt _ h.pos)
  cases hloc : t.locate k with
  | none =>
    have hnone : l.findIdx? p = none := by
      have := (find?_eq_none_iff t k).mpr hloc
      rw [h.find?_eq, List.find?_eq_none] at this
      exact List.findIdx?_eq_none_iff.mpr fun e he => by simpa using this e he
    rw [FirstMatch.modify_findIdx_of_none hnone]
    simpa [Table.adjust, hloc] using h
  | some slot =>
    obtain ⟨j, hj, rfl⟩ := Option.map_eq_some_iff.mp hloc
    have hidx : (t.chain b).findIdx p = j := (List.findIdx?_eq_some_iff_findIdx_eq.mp hj).2
    simp only [Table.adjust, hloc]
    refine ⟨by simpa using h.pos, fun i hi => ?_, by simpa [Table.modify] using h.size⟩
    rw [capacity_modify] at hi ⊢
    rw [chain_modify]
    by_cases hbi : b = i
    · subst hbi
      rw [if_pos rfl, FirstMatch.filter_modify (p := p) (f := fun e => { e with value := f e.value })
        (fun e he => by simp [bucketOf_of_answers he, b]) (fun _ => rfl),
        ← hc, hidx]
    · rw [if_neg hbi, FirstMatch.filter_modify_of_not (p := p) (f := fun e => { e with value := f e.value })
        (fun e he => by simpa [bucketOf_of_answers he] using hbi) (fun _ => rfl)]
      exact h.chain i hi

@[simp] theorem capacity_removeAt (t : Table s ν) (p : Slot) : (t.removeAt p).capacity = t.capacity := by
  simp [Table.removeAt, Table.capacity]

theorem chain_removeAt (t : Table s ν) (p : Slot) (i : Nat) :
    (t.removeAt p).chain i = if p.bucket = i then (t.chain i).eraseIdx p.pos else t.chain i := by
  by_cases hi : i < t.capacity
  · exact chain_modifyBucket t p.bucket _ (t.size - 1) (t.changes + 1) hi
  · have hle := Nat.le_of_not_lt hi
    rw [chain_of_le t hle, chain_of_le (t.removeAt p) (by simpa using hle)]
    simp

/-- A removal takes out the first entry that answers. -/
theorem Lays.removeEntry (h : Lays t l) (k : κ) :
    Lays (t.removeEntry k).2 (l.eraseP (answers s (s.hashOf k) k)) := by
  let p := answers (ν := ν) s (s.hashOf k) k
  let b := bucketOf (s.hashOf k) t.capacity
  have hc : t.chain b = l.filter fun e => bucketOf e.hash t.capacity == b := h.chain b (bucketOf_lt _ h.pos)
  have hfind := h.find?_eq k
  cases hloc : t.locate k with
  | none =>
    rw [(find?_eq_none_iff t k).mpr hloc] at hfind
    have hnone : ∀ e ∈ l, ¬ p e = true := List.find?_eq_none.mp hfind.symm
    rw [List.eraseP_of_forall_not hnone]
    simpa [Table.removeEntry, hloc] using h
  | some slot =>
    obtain ⟨j, hj, rfl⟩ := Option.map_eq_some_iff.mp hloc
    have herase : (t.chain b).eraseIdx j = (t.chain b).eraseP p := by
      rw [List.eraseP_eq_eraseIdx, show (t.chain b).findIdx? p = some j from hj]
    have hmem : ∃ e ∈ l, p e = true := by
      have : t.find? k ≠ none := by rw [ne_eq, find?_eq_none_iff, hloc]; simp
      rw [hfind] at this
      obtain ⟨e, he⟩ := Option.ne_none_iff_exists'.mp this
      exact ⟨e, List.mem_of_find?_eq_some he, List.find?_some he⟩
    simp only [Table.removeEntry, hloc]
    refine ⟨by simpa using h.pos, fun i hi => ?_, ?_⟩
    · rw [capacity_removeAt] at hi ⊢
      rw [chain_removeAt]
      by_cases hbi : b = i
      · subst hbi
        rw [if_pos rfl, FirstMatch.filter_eraseP (p := p) (fun e he => by simp [bucketOf_of_answers he, b]), ← hc]
        exact herase
      · rw [if_neg hbi, FirstMatch.filter_eraseP_of_not (p := p)
          (fun e he => by simpa [bucketOf_of_answers he] using hbi)]
        exact h.chain i hi
    · obtain ⟨e, he, hp⟩ := hmem
      rw [List.length_eraseP_of_mem he hp, ← h.size]
      rfl

/-! ## Insertion -/

theorem capacity_grow (t : Table s ν) : t.grow.capacity = 2 * t.capacity := by
  simp [Table.grow, Table.capacity]

theorem chain_grow (t : Table s ν) {i : Nat} (hi : i < 2 * t.capacity) :
    t.grow.chain i = (t.chain (i % t.capacity)).filter fun e => bucketOf e.hash (2 * t.capacity) == i := by
  simp [chain_eq, Table.grow, hi]

/-- Doubling splits chains, and the list stays. -/
theorem Lays.grow (h : Lays t l) : Lays t.grow l := by
  have hpos := h.pos
  refine ⟨by rw [capacity_grow]; omega, fun i hi => ?_, h.size⟩
  rw [capacity_grow] at hi ⊢
  have hlow : i % t.capacity < t.capacity := Nat.mod_lt _ hpos
  rw [chain_grow t hi, h.chain _ hlow, List.filter_filter]
  refine List.filter_congr fun e _ => ?_
  rw [Bool.eq_iff_iff]
  simp only [Bool.and_eq_true, beq_iff_eq, bucketOf]
  constructor
  · exact fun he => he.1
  · intro he
    refine ⟨he, ?_⟩
    rw [← he, Nat.mod_mul_left_mod]

theorem Lays.reserve (h : Lays t l) : Lays t.reserve l := by
  unfold Table.reserve
  split
  · exact h.grow
  · exact h

@[simp] theorem capacity_append (t : Table s ν) (e : Entry κ ν) : (t.append e).capacity = t.capacity := by
  simp [Table.append, Table.capacity]

theorem chain_append (t : Table s ν) (e : Entry κ ν) {i : Nat} (hi : i < t.capacity) :
    (t.append e).chain i = if bucketOf e.hash t.capacity = i then t.chain i ++ [e] else t.chain i :=
  chain_modifyBucket t _ _ (t.size + 1) (t.changes + 1) hi

theorem Lays.append (h : Lays t l) (e : Entry κ ν) : Lays (t.append e) (l ++ [e]) := by
  refine ⟨by simpa using h.pos, fun i hi => ?_, by simp [Table.append, h.size]⟩
  rw [capacity_append] at hi ⊢
  rw [chain_append t e hi, List.filter_append, h.chain i hi]
  by_cases hb : bucketOf e.hash t.capacity = i
  · simp [hb]
  · simp [hb]

/-- A new entry comes last, whether or not the table doubled for it. -/
theorem Lays.insertNew (h : Lays t l) (k : κ) (v : ν) : Lays (t.insertNew k v) (l ++ [⟨s.hashOf k, k, v⟩]) :=
  h.reserve.append _

/-- Writing to the slot of a new entry is inserting what is written. -/
theorem modify_lastSlot_insertNew (t : Table s ν) (k : κ) (v : ν) (f : ν → ν) :
    (t.insertNew k v).modify ((t.insertNew k v).lastSlot k) f = t.insertNew k (f v) := by
  unfold Table.insertNew
  generalize t.reserve = u
  let e : Entry κ ν := ⟨s.hashOf k, k, v⟩
  have hbuckets : ((u.append e).modify ((u.append e).lastSlot k) f).buckets =
      (u.append { e with value := f v }).buckets := by
    apply Array.ext_getElem?
    intro i
    simp only [Table.modify, lastSlot, capacity_append]
    by_cases hi : bucketOf e.hash u.capacity = i
    · subst hi
      cases hc : u.buckets[bucketOf e.hash u.capacity]? with
      | none => simp [Table.append, Array.getElem?_modify, hc, e]
      | some c =>
        have hchain : (u.append e).chain (bucketOf e.hash u.capacity) = c ++ [e] := by
          simp [chain_eq, Table.append, Array.getElem?_modify, hc]
        simp only [Table.append, Array.getElem?_modify, hc] at hchain ⊢
        simp [hchain, FirstMatch.modify_concat, e]
    · simp [Table.append, Array.getElem?_modify, e] at hi ⊢
      simp [hi]
  exact congrArg (fun a => (⟨a, u.size + 1, u.limit, u.changes + 1⟩ : Table s ν)) hbuckets

/-! ## Order -/

theorem buckets_eq (t : Table s ν) : t.buckets.toList = (List.range t.capacity).map t.chain := by
  apply List.ext_getElem
  · simp [Table.capacity]
  · intro i h1 h2
    simp at h1 h2
    simp [chain_eq, h1]

/-- The buckets one after the other. -/
theorem Lays.entries_eq (h : Lays t l) :
    t.entries = (List.range t.capacity).flatMap fun i => l.filter fun e => bucketOf e.hash t.capacity == i := by
  rw [Table.entries, buckets_eq, List.flatMap_def]
  exact congrArg List.flatten (List.map_congr_left fun i hi => h.chain i (List.mem_range.mp hi))

/-- The order of the buckets is a permutation of the order of insertion. -/
theorem Lays.entries_perm (h : Lays t l) : t.entries.Perm l := by
  rw [h.entries_eq]
  refine (FirstMatch.flatMap_filter_perm (fun e : Entry κ ν => bucketOf e.hash t.capacity) l t.capacity).trans ?_
  rw [List.filter_eq_self.mpr fun e _ => by simpa using bucketOf_lt e.hash h.pos]

end Table

end Switchboard
