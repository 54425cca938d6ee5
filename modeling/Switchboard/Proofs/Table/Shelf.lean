/-
  Switchboard.Proofs.Table.Shelf — tables and shelves as maps.

  Under a lawful keying a table that was filled by its own operations is a map (`IsMap`): it
  stores each key with the key's hash and no two keys that are the same. Every operation on
  a key then shows at that key and at no other (`IsMap.find?_adjust`, `IsMap.find?_insertNew`,
  `IsMap.find?_removeEntry`).

  A shelf is read through `Shelf.listAt`, which gives every key a list. Editing and trimming
  change the list of one key (`listAt_editAt`, `listAt_adjust`, `listAt_trimAt`); trimming
  leaves no empty list behind (`Shelf.Tidy`).
-/

import Switchboard.Proofs.Table.Layout

namespace Switchboard

namespace FirstMatch

variable {β : Type} {p q : β → Bool} {f : β → β} {l : List β}

theorem find?_congr (h : ∀ e ∈ l, p e = q e) : l.find? p = l.find? q := by
  induction l with
  | nil => rfl
  | cons e l ih =>
    simp only [List.find?_cons, h e (List.mem_cons_self ..), ih fun d hd => h d (List.mem_cons_of_mem _ hd)]

theorem find?_modify (hf : ∀ e, p (f e) = p e) (l : List β) :
    (l.modify (l.findIdx p) f).find? p = (l.find? p).map f := by
  induction l with
  | nil => rfl
  | cons e l ih =>
    by_cases hp : p e = true
    · simp [List.findIdx_cons, hp, hf]
    · simp [List.findIdx_cons, hp, ih]

theorem find?_modify_of_not (hpq : ∀ e ∈ l, p e = true → q e = false) (hf : ∀ e, q (f e) = q e) :
    (l.modify (l.findIdx p) f).find? q = l.find? q := by
  induction l with
  | nil => rfl
  | cons e l ih =>
    have ih := ih fun d hd => hpq d (List.mem_cons_of_mem _ hd)
    by_cases hp : p e = true
    · simp [List.findIdx_cons, hp, hf, hpq e (List.mem_cons_self ..) hp]
    · simp [List.findIdx_cons, hp, List.find?_cons, ih]

theorem find?_eraseP_of_not (hpq : ∀ e ∈ l, p e = true → q e = false) : (l.eraseP p).find? q = l.find? q := by
  induction l with
  | nil => rfl
  | cons e l ih =>
    have ih := ih fun d hd => hpq d (List.mem_cons_of_mem _ hd)
    by_cases hp : p e = true
    · simp [hp, hpq e (List.mem_cons_self ..) hp]
    · simp [hp, List.find?_cons, ih]

theorem not_of_mem_eraseP (h : l.Pairwise fun d e => p d = true → p e = false) {e : β} (he : e ∈ l.eraseP p) :
    p e = false := by
  induction l with
  | nil => cases he
  | cons d l ih =>
    obtain ⟨hd, hl⟩ := List.pairwise_cons.mp h
    by_cases hp : p d = true
    · rw [List.eraseP_cons_of_pos hp] at he
      exact hd e he hp
    · rw [List.eraseP_cons_of_neg hp] at he
      rcases List.mem_cons.mp he with rfl | he
      · simpa using hp
      · exact ih hl he

/-- Where a test picks one member at most, all that it picks is what it finds. -/
theorem filter_eq_find?_toList (h : l.Pairwise fun d e => p d = true → p e = false) :
    l.filter p = (l.find? p).toList := by
  induction l with
  | nil => rfl
  | cons e l ih =>
    obtain ⟨he, hl⟩ := List.pairwise_cons.mp h
    by_cases hp : p e = true
    · have : l.filter p = [] := List.filter_eq_nil_iff.mpr fun d hd => by simp [he d hd hp]
      simp [hp, this]
    · simp [hp, ih hl]

end FirstMatch

namespace Table

variable {κ ν : Type} {s : Keying κ} {t : Table s ν}

/-! ## Maps -/

/-- Keys are stored with their hashes, and no two of them are the same. -/
structure MapLike (s : Keying κ) (l : List (Entry κ ν)) : Prop where
  hashed : ∀ e ∈ l, e.hash = s.hashOf e.key
  distinct : l.Pairwise fun d e => s.same d.key e.key = false

def IsMap (t : Table s ν) : Prop := ∃ l, Lays t l ∧ MapLike s l

variable {l : List (Entry κ ν)}

theorem answers_eq_same (hs : s.Lawful) {e : Entry κ ν} (he : e.hash = s.hashOf e.key) (k : κ) :
    answers s (s.hashOf k) k e = s.same e.key k := by
  cases h : s.same e.key k
  · simp [answers, h]
  · simp [answers, h, he, hs.hashOf_eq h]

theorem same_iff_of_same (hs : s.Lawful) {j k : κ} (h : s.same j k = true) (i : κ) : s.same i j = s.same i k := by
  rw [Bool.eq_iff_iff]
  exact ⟨fun hi => hs.trans hi h, fun hi => hs.trans hi (hs.symm h)⟩

theorem not_same_of_same (hs : s.Lawful) {i j k : κ} (hjk : s.same j k = false) (hij : s.same i j = true) :
    s.same i k = false := by
  cases h : s.same i k
  · rfl
  · rw [hs.trans (hs.symm hij) h] at hjk
    cases hjk

theorem MapLike.find?_eq (hs : s.Lawful) (h : MapLike s l) (k : κ) :
    l.find? (answers s (s.hashOf k) k) = l.find? fun e => s.same e.key k :=
  FirstMatch.find?_congr fun e he => answers_eq_same hs (h.hashed e he) k

theorem Lays.find?_eq_same (hs : s.Lawful) (h : Lays t l) (hl : MapLike s l) (k : κ) :
    t.find? k = l.find? fun e => s.same e.key k := by
  rw [h.find?_eq, hl.find?_eq hs]

theorem findIdx_eq_same (hs : s.Lawful) (h : MapLike s l) (k : κ) :
    l.findIdx (answers s (s.hashOf k) k) = l.findIdx fun e => s.same e.key k := by
  have hh := h.hashed
  clear h
  induction l with
  | nil => rfl
  | cons e l ih =>
    simp only [List.findIdx_cons, answers_eq_same hs (hh e (List.mem_cons_self ..)),
      ih fun d hd => hh d (List.mem_cons_of_mem _ hd)]

theorem isMap_withCapacity (s : Keying κ) (ν : Type) (c : Nat) : IsMap (withCapacity s ν c) :=
  ⟨[], lays_withCapacity s ν c, ⟨fun _ h => (List.not_mem_nil h).elim, .nil⟩⟩

theorem find?_withCapacity (s : Keying κ) (ν : Type) (c : Nat) (k : κ) : (withCapacity s ν c).find? k = none :=
  (lays_withCapacity s ν c).find?_eq k

theorem MapLike.modify (h : MapLike s l) (i : Nat) (f : ν → ν) :
    MapLike s (l.modify i fun e => { e with value := f e.value }) := by
  have hkeys : ∀ (j : Nat) (l : List (Entry κ ν)),
      (l.modify j fun e => { e with value := f e.value }).map (fun e => (e.hash, e.key)) =
        l.map fun e => (e.hash, e.key) := by
    intro j l
    apply List.ext_getElem?
    intro n
    simp only [List.getElem?_map, List.getElem?_modify]
    cases l[n]? with
    | none => rfl
    | some e => by_cases hj : j = n <;> simp [hj]
  constructor
  · intro e he
    have : (e.hash, e.key) ∈ l.map fun e => (e.hash, e.key) := by
      rw [← hkeys i l]
      exact List.mem_map_of_mem he
    obtain ⟨d, hd, hde⟩ := List.mem_map.mp this
    have := h.hashed d hd
    simp only [Prod.mk.injEq] at hde
    rw [← hde.1, ← hde.2, this]
  · have hp : (l.map fun e => (e.hash, e.key)).Pairwise fun d e => s.same d.2 e.2 = false :=
      List.pairwise_map.mpr h.distinct
    rw [← hkeys i l] at hp
    exact List.pairwise_map.mp hp

theorem MapLike.eraseP (h : MapLike s l) (p : Entry κ ν → Bool) : MapLike s (l.eraseP p) :=
  ⟨fun e he => h.hashed e (List.mem_of_mem_eraseP he), h.distinct.sublist (List.eraseP_sublist ..)⟩

theorem MapLike.concat (h : MapLike s l) {k : κ} (hk : ∀ e ∈ l, s.same e.key k = false) (v : ν) :
    MapLike s (l ++ [⟨s.hashOf k, k, v⟩]) := by
  constructor
  · intro e he
    rcases List.mem_append.mp he with he | he
    · exact h.hashed e he
    · rw [List.mem_singleton.mp he]
  · refine List.pairwise_append.mpr ⟨h.distinct, List.pairwise_singleton .., fun d hd e he => ?_⟩
    rw [List.mem_singleton.mp he]
    exact hk d hd

theorem MapLike.distinct_at (hs : s.Lawful) (h : MapLike s l) (k : κ) :
    l.Pairwise fun d e => s.same d.key k = true → s.same e.key k = false := by
  refine h.distinct.imp fun hde hd => ?_
  cases he : s.same _ k
  · rfl
  · rw [hs.trans hd (hs.symm he)] at hde
    cases hde

/-! ## Operations on a map -/

theorem IsMap.adjust (h : IsMap t) (k : κ) (f : ν → ν) : IsMap (t.adjust k f) := by
  obtain ⟨l, hl, hm⟩ := h
  exact ⟨_, hl.adjust k f, hm.modify ..⟩

theorem IsMap.removeEntry (h : IsMap t) (k : κ) : IsMap (t.removeEntry k).2 := by
  obtain ⟨l, hl, hm⟩ := h
  exact ⟨_, hl.removeEntry k, hm.eraseP _⟩

section Lawful

variable (hs : s.Lawful)
include hs

theorem IsMap.find?_congr (h : IsMap t) {j k : κ} (hjk : s.same j k = true) : t.find? j = t.find? k := by
  obtain ⟨l, hl, hm⟩ := h
  rw [hl.find?_eq_same hs hm, hl.find?_eq_same hs hm]
  exact FirstMatch.find?_congr fun e _ => same_iff_of_same hs hjk e.key

theorem IsMap.find?_adjust (h : IsMap t) (k : κ) (f : ν → ν) (j : κ) :
    (t.adjust k f).find? j =
      if s.same k j then (t.find? j).map fun e => { e with value := f e.value } else t.find? j := by
  obtain ⟨l, hl, hm⟩ := h
  rw [(hl.adjust k f).find?_eq_same hs (hm.modify ..), hl.find?_eq_same hs hm, findIdx_eq_same hs hm]
  by_cases hkj : s.same k j = true
  · have hp : (fun e : Entry κ ν => s.same e.key k) = fun e => s.same e.key j :=
      funext fun e => same_iff_of_same hs hkj e.key
    rw [if_pos hkj, hp]
    exact FirstMatch.find?_modify (p := fun e => s.same e.key j) (f := fun e => { e with value := f e.value })
      (fun _ => rfl) l
  · rw [if_neg hkj]
    exact FirstMatch.find?_modify_of_not
      (fun e _ he => not_same_of_same hs (by simpa using hkj) he) fun _ => rfl

theorem IsMap.insertNew (h : IsMap t) {k : κ} (hk : t.find? k = none) (v : ν) : IsMap (t.insertNew k v) := by
  obtain ⟨l, hl, hm⟩ := h
  rw [hl.find?_eq_same hs hm, List.find?_eq_none] at hk
  exact ⟨_, hl.insertNew k v, hm.concat (fun e he => by simpa using hk e he) v⟩

theorem IsMap.find?_insertNew (h : IsMap t) {k : κ} (hk : t.find? k = none) (v : ν) (j : κ) :
    (t.insertNew k v).find? j = if s.same k j then some ⟨s.hashOf k, k, v⟩ else t.find? j := by
  obtain ⟨l, hl, hm⟩ := h
  have hfree := hk
  rw [hl.find?_eq_same hs hm, List.find?_eq_none] at hfree
  rw [(hl.insertNew k v).find?_eq_same hs (hm.concat (fun e he => by simpa using hfree e he) v), List.find?_append,
    ← hl.find?_eq_same hs hm]
  by_cases hkj : s.same k j = true
  · have hnone : t.find? j = none := by
      rw [← IsMap.find?_congr hs ⟨l, hl, hm⟩ hkj, hk]
    simp [hnone, hkj]
  · cases hj : t.find? j <;> simp [hkj]

theorem IsMap.find?_removeEntry (h : IsMap t) (k j : κ) :
    (t.removeEntry k).2.find? j = if s.same k j then none else t.find? j := by
  obtain ⟨l, hl, hm⟩ := h
  rw [(hl.removeEntry k).find?_eq_same hs (hm.eraseP _), hl.find?_eq_same hs hm]
  by_cases hkj : s.same k j = true
  · rw [if_pos hkj, List.find?_eq_none]
    intro e he hej
    have hek : s.same e.key k = true := hs.trans hej (hs.symm hkj)
    have hd : l.Pairwise fun d e => answers s (s.hashOf k) k d = true → answers s (s.hashOf k) k e = false := by
      refine (hm.distinct_at hs k).imp_of_mem fun hd he h => ?_
      rwa [answers_eq_same hs (hm.hashed _ hd), answers_eq_same hs (hm.hashed _ he)]
    have := FirstMatch.not_of_mem_eraseP hd he
    rw [answers_eq_same hs (hm.hashed e (List.mem_of_mem_eraseP he)), hek] at this
    cases this
  · rw [if_neg hkj]
    refine FirstMatch.find?_eraseP_of_not fun e he hp => ?_
    rw [answers_eq_same hs (hm.hashed e he)] at hp
    exact not_same_of_same hs (by simpa using hkj) hp

/-- What is stored under a key, in the table's own order. -/
theorem IsMap.entries_filter (h : IsMap t) (k : κ) :
    (t.entries.filter fun e => s.same e.key k) = (t.find? k).toList := by
  obtain ⟨l, hl, hm⟩ := h
  have hone : (l.filter fun e => s.same e.key k) = (t.find? k).toList := by
    rw [hl.find?_eq_same hs hm]
    exact FirstMatch.filter_eq_find?_toList (hm.distinct_at hs k)
  have hperm : (t.entries.filter fun e => s.same e.key k).Perm (t.find? k).toList := by
    rw [← hone]
    exact hl.entries_perm.filter _
  cases hf : t.find? k with
  | none => rw [hf] at hperm; exact hperm.eq_nil
  | some e => rw [hf] at hperm; exact List.perm_singleton.mp hperm

/-- An entry is what its key is looked up to. -/
theorem IsMap.find?_of_mem (h : IsMap t) {e : Entry κ ν} (he : e ∈ t.entries) : t.find? e.key = some e := by
  have hmem : e ∈ (t.find? e.key).toList := by
    rw [← h.entries_filter hs]
    exact List.mem_filter.mpr ⟨he, hs.refl e.key⟩
  exact Option.mem_toList.mp hmem

theorem IsMap.mem_of_find? (h : IsMap t) {k : κ} {e : Entry κ ν} (he : t.find? k = some e) :
    e ∈ t.entries ∧ s.same e.key k = true := by
  have hmem : e ∈ t.entries.filter fun e => s.same e.key k := by
    rw [h.entries_filter hs, he]
    exact List.mem_singleton.mpr rfl
  exact List.mem_filter.mp hmem

/-- The table's own order has no two keys that are the same, either. -/
theorem IsMap.pairwise_entries (h : IsMap t) : t.entries.Pairwise fun d e => s.same d.key e.key = false := by
  obtain ⟨l, hl, hm⟩ := h
  refine hl.entries_perm.symm.pairwise hm.distinct fun {d e} hde => ?_
  exact Bool.eq_false_iff.mpr fun hed => Bool.eq_false_iff.mp hde (hs.symm hed)

end Lawful

end Table

/-! ## Shelves -/

namespace Shelf

variable {κ α : Type} {s : Keying κ} {t : Shelf s α}

structure Tidy (t : Shelf s α) : Prop where
  isMap : t.IsMap
  nonempty : ∀ {k e}, t.find? k = some e → e.value ≠ []

theorem listAt_eq (t : Shelf s α) (k : κ) : t.listAt k = ((t.find? k).map (·.value)).getD [] := rfl

theorem editAt_of_found {k : κ} {e : Entry κ (List α)} (h : t.find? k = some e) (f : List α → List α) :
    t.editAt k f = t.adjust k f := by
  have hloc : t.locate k ≠ none := by rw [ne_eq, ← Table.find?_eq_none_iff, h]; simp
  obtain ⟨p, hp⟩ := Option.ne_none_iff_exists'.mp hloc
  simp [Shelf.editAt, Table.getOrInsert, Table.getOrInsertM, Table.adjust, hp]

theorem editAt_of_missing {k : κ} (h : t.find? k = none) (f : List α → List α) :
    t.editAt k f = t.insertNew k (f []) := by
  rw [← Table.modify_lastSlot_insertNew t k [] f]
  simp [Shelf.editAt, Table.getOrInsert, Table.getOrInsertM, (Table.find?_eq_none_iff t k).mp h]

theorem trimAt_of_emptied {k : κ} {keep : α → Bool} (h : (t.adjust k (·.filter keep)).get? k = some []) :
    t.trimAt k keep = ((t.adjust k (·.filter keep)).removeEntry k).2 := by
  simp only [Shelf.trimAt, h, Table.remove]

theorem trimAt_of_not_emptied {k : κ} {keep : α → Bool} (h : (t.adjust k (·.filter keep)).get? k ≠ some []) :
    t.trimAt k keep = t.adjust k (·.filter keep) := by
  simp only [Shelf.trimAt]

theorem tidy_withCapacity (s : Keying κ) (α : Type) (c : Nat) : Tidy (Table.withCapacity s (List α) c) where
  isMap := Table.isMap_withCapacity ..
  nonempty h := by rw [Table.find?_withCapacity] at h; cases h

theorem listAt_withCapacity (s : Keying κ) (α : Type) (c : Nat) (k : κ) :
    listAt (Table.withCapacity s (List α) c) k = [] := by
  rw [listAt_eq, Table.find?_withCapacity]
  rfl

section Lawful

variable (hs : s.Lawful)
include hs

theorem listAt_congr (h : t.IsMap) {j k : κ} (hjk : s.same j k = true) : t.listAt j = t.listAt k := by
  rw [listAt_eq, listAt_eq, h.find?_congr hs hjk]

/-- Editing a list shows at its key only. -/
theorem listAt_editAt (h : t.IsMap) (k : κ) (f : List α → List α) (j : κ) :
    (t.editAt k f).listAt j = if s.same k j then f (t.listAt k) else t.listAt j := by
  cases hk : t.find? k with
  | some e =>
    rw [editAt_of_found hk, listAt_eq, h.find?_adjust hs]
    by_cases hkj : s.same k j = true
    · rw [if_pos hkj, if_pos hkj, ← h.find?_congr hs hkj, listAt_eq, hk]
      rfl
    · rw [if_neg hkj, if_neg hkj, listAt_eq]
  | none =>
    rw [editAt_of_missing hk, listAt_eq, h.find?_insertNew hs hk]
    by_cases hkj : s.same k j = true
    · rw [if_pos hkj, if_pos hkj, listAt_eq, hk]
      rfl
    · rw [if_neg hkj, if_neg hkj, listAt_eq]

/-- So does adjusting it, for a change that leaves the empty list as it is. -/
theorem listAt_adjust (h : t.IsMap) (k : κ) {f : List α → List α} (hf : f [] = []) (j : κ) :
    listAt (t.adjust k f) j = if s.same k j then f (t.listAt k) else t.listAt j := by
  rw [listAt_eq, h.find?_adjust hs]
  by_cases hkj : s.same k j = true
  · rw [if_pos hkj, if_pos hkj, listAt_congr hs h hkj, listAt_eq]
    cases t.find? j with
    | none => exact hf.symm
    | some e => rfl
  · rw [if_neg hkj, if_neg hkj, listAt_eq]

theorem Tidy.editAt (h : Tidy t) (k : κ) {f : List α → List α} (hf : ∀ l, f l ≠ []) : Tidy (t.editAt k f) := by
  cases hk : t.find? k with
  | some e =>
    rw [editAt_of_found hk]
    refine ⟨h.isMap.adjust k f, fun {j d} hd => ?_⟩
    rw [h.isMap.find?_adjust hs] at hd
    split at hd
    · obtain ⟨d', -, rfl⟩ := Option.map_eq_some_iff.mp hd
      exact hf _
    · exact h.nonempty hd
  | none =>
    rw [editAt_of_missing hk]
    refine ⟨h.isMap.insertNew hs hk _, fun {j d} hd => ?_⟩
    rw [h.isMap.find?_insertNew hs hk] at hd
    split at hd
    · obtain rfl := Option.some.inj hd
      exact hf _
    · exact h.nonempty hd

theorem Tidy.adjust (h : Tidy t) (k : κ) {f : List α → List α} (hf : ∀ l, l ≠ [] → f l ≠ []) :
    Tidy (t.adjust k f) := by
  refine ⟨h.isMap.adjust k f, fun {j d} hd => ?_⟩
  rw [h.isMap.find?_adjust hs] at hd
  split at hd
  · obtain ⟨d', hd', rfl⟩ := Option.map_eq_some_iff.mp hd
    exact hf _ (h.nonempty hd')
  · exact h.nonempty hd

/-- What trimming does to the stored entries: a list that has no member left is gone. -/
theorem find?_trimAt (h : Tidy t) (k : κ) (keep : α → Bool) (j : κ) :
    (t.trimAt k keep).find? j =
      if s.same k j then
        ((t.find? j).map fun e => { e with value := e.value.filter keep }).filter fun e => !e.value.isEmpty
      else t.find? j := by
  have hadj := h.isMap.find?_adjust hs k (·.filter keep)
  have hmap := h.isMap.adjust k (·.filter keep)
  by_cases hempty : (t.adjust k (·.filter keep)).get? k = some []
  · rw [trimAt_of_emptied hempty, hmap.find?_removeEntry hs]
    by_cases hkj : s.same k j = true
    · rw [if_pos hkj, if_pos hkj]
      obtain ⟨e, he, hv⟩ := Option.map_eq_some_iff.mp hempty
      rw [hadj, if_pos (hs.refl k), h.isMap.find?_congr hs hkj] at he
      simp [he, hv, Option.filter]
    · rw [if_neg hkj, if_neg hkj, hadj, if_neg hkj]
  · rw [trimAt_of_not_emptied hempty, hadj]
    by_cases hkj : s.same k j = true
    · rw [if_pos hkj, if_pos hkj]
      rw [Table.get?, hmap.find?_congr hs hkj, hadj, if_pos hkj] at hempty
      cases hj : t.find? j with
      | none => rfl
      | some e =>
        rw [hj] at hempty
        have hne : (e.value.filter keep).isEmpty = false := by
          rw [List.isEmpty_eq_false_iff]
          exact fun hnil => hempty (by simp [hnil])
        simp [Option.filter, hne]
    · rw [if_neg hkj, if_neg hkj]

theorem listAt_trimAt (h : Tidy t) (k : κ) (keep : α → Bool) (j : κ) :
    (t.trimAt k keep).listAt j = if s.same k j then (t.listAt k).filter keep else t.listAt j := by
  rw [listAt_eq, find?_trimAt hs h]
  by_cases hkj : s.same k j = true
  · rw [if_pos hkj, if_pos hkj, listAt_congr hs h.isMap hkj, listAt_eq]
    cases t.find? j with
    | none => rfl
    | some e => cases hf : e.value.filter keep <;> simp [Option.filter, hf]
  · rw [if_neg hkj, if_neg hkj, listAt_eq]

theorem Tidy.trimAt (h : Tidy t) (k : κ) (keep : α → Bool) : Tidy (t.trimAt k keep) := by
  constructor
  · by_cases hempty : (t.adjust k (·.filter keep)).get? k = some []
    · rw [trimAt_of_emptied hempty]
      exact (h.isMap.adjust k _).removeEntry k
    · rw [trimAt_of_not_emptied hempty]
      exact h.isMap.adjust k _
  · intro j e he
    rw [find?_trimAt hs h] at he
    split at he
    · simpa using (Option.filter_eq_some_iff.mp he).2
    · exact h.nonempty he

/-- What is on the shelf is in the list of some key. -/
theorem listAt_of_mem_entries (h : t.IsMap) {e : Entry κ (List α)} (he : e ∈ t.entries) : t.listAt e.key = e.value := by
  rw [listAt_eq, h.find?_of_mem hs he]
  rfl

theorem mem_members (h : t.IsMap) {x : α} : x ∈ members t ↔ ∃ k, x ∈ t.listAt k := by
  constructor
  · intro hx
    obtain ⟨l, hl, hx⟩ := List.mem_flatten.mp hx
    obtain ⟨e, he, rfl⟩ := List.mem_map.mp hl
    refine ⟨e.key, ?_⟩
    rw [listAt_of_mem_entries hs h he]
    exact hx
  · rintro ⟨k, hx⟩
    rw [listAt_eq] at hx
    cases hk : t.find? k with
    | none =>
      rw [hk] at hx
      cases hx
    | some e =>
      rw [hk] at hx
      exact List.mem_flatten.mpr ⟨e.value, List.mem_map.mpr ⟨e, (h.mem_of_find? hs hk).1, rfl⟩, hx⟩

/-- What holds between the members of each list, and between those of different keys, holds between all. -/
theorem pairwise_members (h : t.IsMap) {rel : α → α → Prop} (hone : ∀ k, (t.listAt k).Pairwise rel)
    (hkey : ∀ j k x y, s.same j k = false → x ∈ t.listAt j → y ∈ t.listAt k → rel x y) : (members t).Pairwise rel := by
  refine List.pairwise_flatten.mpr ⟨fun l hl => ?_, List.pairwise_map.mpr ?_⟩
  · obtain ⟨e, he, rfl⟩ := List.mem_map.mp hl
    rw [← listAt_of_mem_entries hs h he]
    exact hone e.key
  · refine (h.pairwise_entries hs).imp_of_mem fun {d e} hd he hde x hx y hy => ?_
    rw [← listAt_of_mem_entries hs h hd] at hx
    rw [← listAt_of_mem_entries hs h he] at hy
    exact hkey d.key e.key x y hde hx hy

/-- Where no list has a member twice and no two keys share one, none is on the shelf twice. -/
theorem nodup_members (h : t.IsMap) (hone : ∀ k, (t.listAt k).Nodup)
    (hkey : ∀ j k x, x ∈ t.listAt j → x ∈ t.listAt k → s.same j k = true) : (members t).Nodup := by
  refine pairwise_members hs h hone fun j k x y hjk hx hy => ?_
  rintro rfl
  rw [hkey j k x hx hy] at hjk
  cases hjk

/-- Where only equal keys are the same, a slot has the list of its key. -/
theorem mem_toList (hkey : ∀ {j k}, s.same j k = true → j = k) (h : Tidy t) {k : κ} {l : List α} :
    (k, l) ∈ t.toList ↔ t.listAt k = l ∧ l ≠ [] := by
  constructor
  · intro hmem
    obtain ⟨e, he, heq⟩ := List.mem_map.mp hmem
    obtain ⟨rfl, rfl⟩ := Prod.mk.inj heq
    exact ⟨listAt_of_mem_entries hs h.isMap he, h.nonempty (h.isMap.find?_of_mem hs he)⟩
  · rintro ⟨rfl, hne⟩
    rw [listAt_eq] at hne
    cases hfind : t.find? k with
    | none =>
      rw [hfind] at hne
      exact absurd rfl hne
    | some e =>
      obtain ⟨he, hsame⟩ := h.isMap.mem_of_find? hs hfind
      refine List.mem_map.mpr ⟨e, he, ?_⟩
      rw [listAt_eq, hfind, hkey hsame]
      rfl

/-- Shelves with the same lists have the same slots, though maybe in another order. -/
theorem toList_perm {t' : Shelf s α} (hkey : ∀ {j k}, s.same j k = true → j = k) (h : Tidy t) (h' : Tidy t')
    (hlists : ∀ k, t'.listAt k = t.listAt k) : t'.toList.Perm t.toList := by
  have hnodup : ∀ {u : Shelf s α}, Tidy u → u.toList.Nodup := by
    intro u hu
    refine List.pairwise_map.mpr ((hu.isMap.pairwise_entries hs).imp fun {d e} hde heq => ?_)
    rw [show d.key = e.key from congrArg Prod.fst heq, hs.refl] at hde
    cases hde
  refine (List.perm_ext_iff_of_nodup (hnodup h') (hnodup h)).mpr fun e => ?_
  rw [mem_toList hs hkey h', mem_toList hs hkey h, hlists]

/-- No slot is empty. -/
theorem Tidy.ne_nil_of_mem (h : Tidy t) {e : Entry κ (List α)} (he : e ∈ t.entries) : e.value ≠ [] :=
  h.nonempty (h.isMap.find?_of_mem hs he)

end Lawful

end Shelf

end Switchboard
