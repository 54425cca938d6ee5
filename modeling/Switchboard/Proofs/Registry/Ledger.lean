/-
  Switchboard.Proofs.Registry.Ledger — what the ledger's operations do.

  A ledger is read bundle by bundle (`Ledger.usages`). It is sound when its shelf is tidy and
  no bundle has two entries for one reference id (`Ledger.Sound`).

  Counting, caching and releasing each change one entry: they put one, replace it where it
  stands or take it out (`Edit`). What a whole ledger adds up to therefore changes by what
  that entry does (`Edit.sum`), and every other pair keeps its entry (`Edit.usage?_of_ne`).

  A drain takes out the entries made for one registration, keeps all others in their order
  (`usages_drain`) and gives back what they had cached (`objects_drain`).
-/

import Mathlib.Algebra.BigOperators.Group.List.Basic
import Mathlib.Tactic.Abel
import Switchboard.Proofs.Table.Shelf
import Switchboard.Registry.Ledger

namespace Switchboard

theorem Keying.same_bundle (a b : BundleId) : Keying.bundle.same a b = true ↔ a = b := beq_iff_eq

theorem Keying.bundle_lawful : Keying.bundle.Lawful where
  refl b := (same_bundle b b).mpr rfl
  symm h := (same_bundle _ _).mpr ((same_bundle _ _).mp h).symm
  trans h h' := (same_bundle _ _).mpr (((same_bundle _ _).mp h).trans ((same_bundle _ _).mp h'))
  hash h := congrArg _ ((same_bundle _ _).mp h)
  absent _ := rfl

namespace Ledger

variable {α : Type} {l l' : Ledger α} {b : BundleId} {id : Nat}

def usages (l : Ledger α) (b : BundleId) : List (Usage α) := l.inUse.listAt b

structure Sound (l : Ledger α) : Prop where
  tidy : Shelf.Tidy l.inUse
  distinct : ∀ b, (l.usages b).Pairwise fun u v => u.reference.id ≠ v.reference.id

theorem sound_withCapacity (α : Type) (c : Nat) : (withCapacity c : Ledger α).Sound where
  tidy := Shelf.tidy_withCapacity ..
  distinct b := by
    rw [usages, withCapacity, Shelf.listAt_withCapacity]
    exact .nil

theorem usages_withCapacity (α : Type) (c : Nat) (b : BundleId) : (withCapacity c : Ledger α).usages b = [] :=
  Shelf.listAt_withCapacity ..

theorem usage?_eq (l : Ledger α) (b : BundleId) (id : Nat) :
    l.usage? b id = (l.usages b).find? (·.reference.id == id) := rfl

theorem mem_of_usage? {u : Usage α} (h : l.usage? b id = some u) : u ∈ l.usages b ∧ u.reference.id = id :=
  ⟨List.mem_of_find?_eq_some h, by simpa using List.find?_some h⟩

theorem usage?_of_mem (hl : l.Sound) {u : Usage α} (h : u ∈ l.usages b) : l.usage? b u.reference.id = some u := by
  obtain ⟨pre, post, hsplit⟩ := List.append_of_mem h
  have hd := hl.distinct b
  rw [hsplit] at hd
  rw [usage?_eq, hsplit, List.find?_append, List.find?_eq_none.mpr, Option.none_or, List.find?_cons_of_pos (by simp)]
  intro v hv
  have := (List.pairwise_append.mp hd).2.2 v hv u (List.mem_cons_self ..)
  simpa using this

theorem ne_of_usage?_eq_none (h : l.usage? b id = none) : ∀ u ∈ l.usages b, u.reference.id ≠ id := by
  simpa using List.find?_eq_none.mp ((usage?_eq l b id).symm.trans h)

/-! ## Editing one entry -/

/-- From `l` to `l'` the entry of the pair of `b` and `id` went from `u` to `v`, where none is
    no entry. -/
structure Edit (l l' : Ledger α) (b : BundleId) (id : Nat) (u v : Option (Usage α)) : Prop where
  others : ∀ c, c ≠ b → l'.usages c = l.usages c
  here : ∃ pre post, l.usages b = pre ++ u.toList ++ post ∧ l'.usages b = pre ++ v.toList ++ post ∧
    ∀ x ∈ pre ++ post, x.reference.id ≠ id
  before : ∀ x, u = some x → x.reference.id = id
  after : ∀ x, v = some x → x.reference.id = id

variable {u v : Option (Usage α)}

theorem usage?_of_split {pre post : List (Usage α)} (h : l.usages b = pre ++ u.toList ++ post)
    (hu : ∀ x, u = some x → x.reference.id = id) (hne : ∀ x ∈ pre ++ post, x.reference.id ≠ id) : l.usage? b id = u := by
  have hnone : ∀ xs : List (Usage α), (∀ x ∈ xs, x.reference.id ≠ id) → xs.find? (·.reference.id == id) = none :=
    fun xs hxs => List.find?_eq_none.mpr fun x hx => by simpa using hxs x hx
  rw [usage?_eq, h, List.find?_append, List.find?_append, hnone pre fun x hx => hne x (List.mem_append_left _ hx),
    hnone post fun x hx => hne x (List.mem_append_right _ hx)]
  cases u with
  | none => rfl
  | some x => simp [hu x rfl]

theorem Edit.usage?_before (h : Edit l l' b id u v) : l.usage? b id = u := by
  obtain ⟨pre, post, hl, -, hne⟩ := h.here
  exact usage?_of_split hl h.before hne

theorem Edit.usage?_after (h : Edit l l' b id u v) : l'.usage? b id = v := by
  obtain ⟨pre, post, -, hl, hne⟩ := h.here
  exact usage?_of_split hl h.after hne

theorem Edit.usage?_of_ne (h : Edit l l' b id u v) {c : BundleId} {j : Nat} (hne : (c, j) ≠ (b, id)) :
    l'.usage? c j = l.usage? c j := by
  by_cases hc : c = b
  · subst hc
    have hj : id ≠ j := fun e => hne (by rw [e])
    obtain ⟨pre, post, hl, hl', -⟩ := h.here
    have hskip : ∀ w : Option (Usage α), (∀ x, w = some x → x.reference.id = id) →
        w.toList.find? (·.reference.id == j) = none := by
      intro w hw
      cases w with
      | none => rfl
      | some x => simp [hw x rfl, hj]
    rw [usage?_eq, usage?_eq, hl, hl']
    simp only [List.find?_append, hskip u h.before, hskip v h.after]
  · rw [usage?_eq, usage?_eq, h.others c hc]

/-- What the entries of a bundle add up to changes by what the edited entry does. -/
theorem Edit.sum {M : Type} [AddCommMonoid M] (h : Edit l l' b id u v) (m : BundleId → Usage α → M) (c : BundleId) :
    ((l'.usages c).map (m c)).sum + (if c = b then (u.map (m b)).getD 0 else 0) =
      ((l.usages c).map (m c)).sum + (if c = b then (v.map (m b)).getD 0 else 0) := by
  by_cases hc : c = b
  · subst hc
    obtain ⟨pre, post, hl, hl', -⟩ := h.here
    have hopt : ∀ w : Option (Usage α), (w.toList.map (m c)).sum = (w.map (m c)).getD 0 := by
      intro w
      cases w <;> simp
    simp only [hl, hl', List.map_append, List.sum_append, hopt, if_true]
    abel
  · rw [h.others c hc, if_neg hc, if_neg hc]

/-- Every entry of the new ledger is an entry of the old one or the edited one. -/
theorem Edit.mem (h : Edit l l' b id u v) {c : BundleId} {x : Usage α} (hx : x ∈ l'.usages c) :
    x ∈ l.usages c ∨ (c = b ∧ v = some x) := by
  by_cases hc : c = b
  · subst hc
    obtain ⟨pre, post, hl, hl', -⟩ := h.here
    rw [hl'] at hx
    simp only [List.mem_append, Option.mem_toList] at hx
    rcases hx with (hx | hx) | hx
    · exact Or.inl (by rw [hl]; simp [hx])
    · exact Or.inr ⟨rfl, hx⟩
    · exact Or.inl (by rw [hl]; simp [hx])
  · rw [h.others c hc] at hx
    exact Or.inl hx

theorem Edit.sound (h : Edit l l' b id u v) (hl : l.Sound) (ht : Shelf.Tidy l'.inUse) : l'.Sound := by
  refine ⟨ht, fun c => ?_⟩
  by_cases hc : c = b
  · subst hc
    obtain ⟨pre, post, hb, ha, hne⟩ := h.here
    have hd := hl.distinct c
    rw [hb, List.append_assoc] at hd
    rw [ha, List.append_assoc]
    obtain ⟨h1, h2, h3⟩ := List.pairwise_append.mp hd
    obtain ⟨-, h4, -⟩ := List.pairwise_append.mp h2
    have hv : ∀ x ∈ v.toList, x.reference.id = id := fun x hx => h.after x (Option.mem_toList.mp hx)
    refine List.pairwise_append.mpr ⟨h1, List.pairwise_append.mpr ⟨?_, h4, ?_⟩, ?_⟩
    · cases v <;> simp
    · intro x hx y hy
      rw [hv x hx]
      exact (hne y (List.mem_append_right _ hy)).symm
    · intro x hx y hy
      rcases List.mem_append.mp hy with hy | hy
      · rw [hv y hy]
        exact hne x (List.mem_append_left _ hx)
      · exact h3 x hx y (List.mem_append_right _ hy)
  · rw [h.others c hc]
    exact hl.distinct c

/-- A sound ledger falls apart at any of its entries. -/
theorem Sound.split (hl : l.Sound) {u : Usage α} (h : l.usage? b id = some u) :
    ∃ pre post, l.usages b = pre ++ u :: post ∧ ∀ x ∈ pre ++ post, x.reference.id ≠ id := by
  obtain ⟨hmem, rfl⟩ := mem_of_usage? h
  obtain ⟨pre, post, hsplit⟩ := List.append_of_mem hmem
  refine ⟨pre, post, hsplit, fun x hx => ?_⟩
  have hd := hl.distinct b
  rw [hsplit] at hd
  obtain ⟨-, h2, h3⟩ := List.pairwise_append.mp hd
  rcases List.mem_append.mp hx with hx | hx
  · exact h3 x hx u (List.mem_cons_self ..)
  · exact ((List.pairwise_cons.mp h2).1 x hx).symm

/-- It falls apart at any pair, with an entry or without. -/
theorem Sound.parts (hl : l.Sound) (b : BundleId) (id : Nat) :
    ∃ pre post, l.usages b = pre ++ (l.usage? b id).toList ++ post ∧ ∀ x ∈ pre ++ post, x.reference.id ≠ id := by
  cases hu : l.usage? b id with
  | none => exact ⟨l.usages b, [], by simp, by simpa using ne_of_usage?_eq_none hu⟩
  | some u =>
    obtain ⟨pre, post, hsplit, hne⟩ := hl.split hu
    exact ⟨pre, post, by simpa using hsplit, hne⟩

/-! ## The operations as edits -/

theorem updateIn_split {pre post : List (Usage α)} {u : Usage α} (hu : u.reference.id = id)
    (hne : ∀ x ∈ pre ++ post, x.reference.id ≠ id) (f : Usage α → Usage α) :
    updateIn id f (pre ++ u :: post) = pre ++ f u :: post := by
  have hsame : ∀ xs : List (Usage α), (∀ x ∈ xs, x.reference.id ≠ id) → updateIn id f xs = xs := by
    intro xs hxs
    refine (List.map_congr_left fun x hx => ?_).trans (List.map_id _)
    simp [hxs x hx]
  have happ : updateIn id f (pre ++ u :: post) = updateIn id f pre ++ f u :: updateIn id f post := by
    simp [updateIn, hu]
  rw [happ, hsame pre fun x hx => hne x (List.mem_append_left _ hx),
    hsame post fun x hx => hne x (List.mem_append_right _ hx)]

theorem usages_adjust (hl : l.Sound) (b : BundleId) {f : List (Usage α) → List (Usage α)} (hf : f [] = []) (c : BundleId) :
    Ledger.usages ⟨l.inUse.adjust b f⟩ c = if c = b then f (l.usages b) else l.usages c := by
  rw [usages, Shelf.listAt_adjust Keying.bundle_lawful hl.tidy.isMap b hf]
  simp only [Keying.same_bundle, eq_comm (a := b)]
  rfl

/-- Replacing an entry by one of the same reference id. -/
theorem edit_updateIn (hl : l.Sound) {u : Usage α} (h : l.usage? b id = some u) {f : Usage α → Usage α}
    (hf : (f u).reference.id = id) : Edit l ⟨l.inUse.adjust b (updateIn id f)⟩ b id (some u) (some (f u)) := by
  obtain ⟨pre, post, hsplit, hne⟩ := hl.split h
  refine ⟨fun c hc => ?_, ⟨pre, post, by simpa using hsplit, ?_, hne⟩, ?_, ?_⟩
  · rw [usages_adjust hl b rfl, if_neg hc]
  · rw [usages_adjust hl b rfl, if_pos rfl, hsplit, updateIn_split (mem_of_usage? h).2 hne]
    simp
  · rintro x ⟨⟩
    exact (mem_of_usage? h).2
  · rintro x ⟨⟩
    exact hf

theorem sound_updateIn (hl : l.Sound) {u : Usage α} (h : l.usage? b id = some u) {f : Usage α → Usage α}
    (hf : (f u).reference.id = id) : Ledger.Sound ⟨l.inUse.adjust b (updateIn id f)⟩ :=
  (edit_updateIn hl h hf).sound hl
    (hl.tidy.adjust Keying.bundle_lawful b fun us hus => by simpa [updateIn] using hus)

theorem usages_acquire (hl : l.Sound) (b : BundleId) (r : Reference) (c : BundleId) :
    (l.acquire b r).2.usages c = if c = b then addUse r (l.usages b) else l.usages c := by
  rw [acquire, usages, Shelf.listAt_editAt Keying.bundle_lawful hl.tidy.isMap]
  simp only [Keying.same_bundle, eq_comm (a := b)]
  rfl

theorem usages_flush (hl : l.Sound) (b : BundleId) (id : Nat) (c : BundleId) :
    (l.flush b id).usages c = if c = b then (l.usages b).filter (·.reference.id != id) else l.usages c := by
  rw [flush, usages, Shelf.listAt_trimAt Keying.bundle_lawful hl.tidy]
  simp only [Keying.same_bundle, eq_comm (a := b)]
  rfl

theorem addUse_ne_nil (r : Reference) (us : List (Usage α)) : addUse r us ≠ [] := by
  unfold addUse
  split
  · rename_i hany
    cases us with
    | nil => simp at hany
    | cons u us => simp [updateIn]
  · simp

def usedBy (r : Reference) : Option (Usage α) → Usage α
  | some u => Usage.addUse u
  | none => ⟨r, 1, none⟩

theorem edit_acquire (hl : l.Sound) (b : BundleId) (r : Reference) :
    Edit l (l.acquire b r).2 b r.id (l.usage? b r.id) (some (usedBy r (l.usage? b r.id))) := by
  have husages := usages_acquire hl b r
  cases hu : l.usage? b r.id with
  | none =>
    have hne := ne_of_usage?_eq_none hu
    have hany : (l.usages b).any (·.reference.id == r.id) = false := by simpa using hne
    refine ⟨fun c hc => by rw [husages, if_neg hc], ⟨l.usages b, [], by simp, ?_, by simpa using hne⟩, ?_, ?_⟩
    · rw [husages, if_pos rfl]
      simp [addUse, hany, usedBy]
    · rintro x ⟨⟩
    · rintro x ⟨⟩
      rfl
  | some u =>
    obtain ⟨pre, post, hsplit, hne⟩ := hl.split hu
    have hid := (mem_of_usage? hu).2
    refine ⟨fun c hc => by rw [husages, if_neg hc], ⟨pre, post, by simpa using hsplit, ?_, hne⟩, ?_, ?_⟩
    · have hany : (l.usages b).any (·.reference.id == r.id) = true := by
        rw [hsplit]
        simp [hid]
      rw [husages, if_pos rfl, addUse, if_pos hany, hsplit, updateIn_split hid hne]
      simp [usedBy]
    · rintro x ⟨⟩
      exact hid
    · rintro x ⟨⟩
      exact hid

theorem Sound.acquire (hl : l.Sound) (b : BundleId) (r : Reference) : (l.acquire b r).2.Sound :=
  (edit_acquire hl b r).sound hl (hl.tidy.editAt Keying.bundle_lawful b (addUse_ne_nil r))

theorem filter_split {pre post : List (Usage α)} (hu : ∀ x, u = some x → x.reference.id = id)
    (hne : ∀ x ∈ pre ++ post, x.reference.id ≠ id) :
    (pre ++ u.toList ++ post).filter (·.reference.id != id) = pre ++ post := by
  have hkeep : ∀ xs : List (Usage α), (∀ x ∈ xs, x.reference.id ≠ id) → xs.filter (·.reference.id != id) = xs :=
    fun xs hxs => List.filter_eq_self.mpr fun x hx => by simpa using hxs x hx
  have hgone : u.toList.filter (·.reference.id != id) = [] :=
    List.filter_eq_nil_iff.mpr fun x hx => by simpa using hu x (Option.mem_toList.mp hx)
  rw [List.filter_append, List.filter_append, hgone, List.append_nil, hkeep pre fun x hx => hne x (List.mem_append_left _ hx),
    hkeep post fun x hx => hne x (List.mem_append_right _ hx)]

/-- Flushing a pair removes its entry if it has one. -/
theorem edit_flush (hl : l.Sound) (b : BundleId) (id : Nat) : Edit l (l.flush b id) b id (l.usage? b id) none := by
  obtain ⟨pre, post, hsplit, hne⟩ := hl.parts b id
  have hid : ∀ x, l.usage? b id = some x → x.reference.id = id := fun x hx => (mem_of_usage? hx).2
  refine ⟨fun c hc => by rw [usages_flush hl, if_neg hc], ⟨pre, post, hsplit, ?_, hne⟩, hid, ?_⟩
  · rw [usages_flush hl, if_pos rfl, hsplit, filter_split hid hne]
    simp
  · intro x hx
    cases hx

theorem Sound.flush (hl : l.Sound) (b : BundleId) (id : Nat) : (l.flush b id).Sound :=
  (edit_flush hl b id).sound hl (hl.tidy.trimAt Keying.bundle_lawful b _)

/-- What `release` does, in one statement: without an entry nothing; else one use goes, and
    the entry with the last of them or by force. -/
theorem release_cases (hl : l.Sound) (b : BundleId) (id : Nat) (force : Bool) :
    (l.usage? b id = none ∧ l.release b id force = (.notFound, l)) ∨
    (∃ u, l.usage? b id = some u ∧ force = false ∧ 1 < u.count ∧
      (l.release b id force).1 = .decremented (u.count - 1) ∧ (l.release b id force).2.Sound ∧
      Edit l (l.release b id force).2 b id (some u) (some { u with count := u.count - 1 })) ∨
    (∃ u, l.usage? b id = some u ∧ (force = true ∨ u.count ≤ 1) ∧
      (l.release b id force).1 = .flushed u.object ∧ (l.release b id force).2.Sound ∧
      Edit l (l.release b id force).2 b id (some u) none) := by
  cases hu : l.usage? b id with
  | none =>
    left
    simp only [release, hu, and_self]
  | some u =>
    right
    have hid := (mem_of_usage? hu).2
    by_cases hkeep : (!force && decide (0 < u.count - 1)) = true
    · left
      simp only [release, hu, hkeep, if_true]
      simp only [Bool.and_eq_true, Bool.not_eq_true', decide_eq_true_eq] at hkeep
      exact ⟨u, rfl, hkeep.1, by omega, rfl,
        sound_updateIn hl hu (f := fun u => { u with count := u.count - 1 }) hid,
        edit_updateIn hl hu (f := fun u => { u with count := u.count - 1 }) hid⟩
    · right
      simp only [release, hu, hkeep]
      have he := edit_flush hl b id
      rw [hu] at he
      refine ⟨u, rfl, ?_, rfl, hl.flush b id, he⟩
      cases force
      · right
        simp only [Bool.not_false, Bool.true_and, decide_eq_true_eq] at hkeep
        omega
      · exact Or.inl rfl

theorem release_decremented (hl : l.Sound) {force : Bool} {left : Nat}
    (h : l.release b id force = (.decremented left, l')) :
    ∃ u, force = false ∧ 1 < u.count ∧ left = u.count - 1 ∧ l'.Sound ∧
      Edit l l' b id (some u) (some { u with count := u.count - 1 }) := by
  rcases release_cases hl b id force with ⟨-, h'⟩ | ⟨u, -, hf, hc, h', hs, he⟩ | ⟨u, -, -, h', -, -⟩
  · cases h.symm.trans h'
  · rw [h] at h' hs he
    cases h'
    exact ⟨u, hf, hc, rfl, hs, he⟩
  · rw [h] at h'
    cases h'

theorem release_flushed (hl : l.Sound) {force : Bool} {cached : Option α}
    (h : l.release b id force = (.flushed cached, l')) :
    ∃ u, (force = true ∨ u.count ≤ 1) ∧ cached = u.object ∧ l'.Sound ∧ Edit l l' b id (some u) none := by
  rcases release_cases hl b id force with ⟨-, h'⟩ | ⟨u, -, -, -, h', -, -⟩ | ⟨u, -, hc, h', hs, he⟩
  · cases h.symm.trans h'
  · rw [h] at h'
    cases h'
  · rw [h] at h' hs he
    cases h'
    exact ⟨u, hc, rfl, hs, he⟩

/-- What `store` does: a fresh object is cached where an entry has none. -/
theorem store_cases (hl : l.Sound) (b : BundleId) (id : Nat) (o : α) :
    (l.usage? b id = none ∧ l.store b id o = (.missing, l)) ∨
    (∃ u cached, l.usage? b id = some u ∧ u.object = some cached ∧ l.store b id o = (.existing cached, l)) ∨
    (∃ u, l.usage? b id = some u ∧ u.object = none ∧
      (l.store b id o).1 = .kept ∧ (l.store b id o).2.Sound ∧
      Edit l (l.store b id o).2 b id (some u) (some { u with object := some o })) := by
  cases hu : l.usage? b id with
  | none =>
    left
    simp only [store, hu, and_self]
  | some u =>
    right
    have hid := (mem_of_usage? hu).2
    cases ho : u.object with
    | some cached =>
      left
      exact ⟨u, cached, rfl, ho, by simp only [store, hu, ho]⟩
    | none =>
      right
      have hstore : l.store b id o =
          (.kept, ⟨l.inUse.adjust b (updateIn id fun u => { u with object := some o })⟩) := by
        simp only [store, hu, ho]
      rw [hstore]
      exact ⟨u, rfl, ho, rfl, sound_updateIn hl hu (f := fun u => { u with object := some o }) hid,
        edit_updateIn hl hu (f := fun u => { u with object := some o }) hid⟩

/-! ## Draining a registration -/

theorem split_unique (id : Nat) {u u' : Usage α} {pre post pre' post' : List (Usage α)}
    (h : pre ++ u :: post = pre' ++ u' :: post') (hu : u.reference.id = id) (hu' : u'.reference.id = id)
    (hpre : ∀ x ∈ pre, x.reference.id ≠ id) (hpre' : ∀ x ∈ pre', x.reference.id ≠ id) :
    pre = pre' ∧ post = post' := by
  induction pre generalizing pre' with
  | nil =>
    cases pre' with
    | nil => exact ⟨rfl, (List.cons.inj h).2⟩
    | cons x xs =>
      obtain ⟨rfl, -⟩ := List.cons.inj h
      exact absurd hu (hpre' _ (List.mem_cons_self ..))
  | cons x xs ih =>
    cases pre' with
    | nil =>
      obtain ⟨rfl, -⟩ := List.cons.inj h
      exact absurd hu' (hpre _ (List.mem_cons_self ..))
    | cons y ys =>
      obtain ⟨rfl, htail⟩ := List.cons.inj h
      obtain ⟨rfl, rfl⟩ := ih htail (fun z hz => hpre z (List.mem_cons_of_mem _ hz))
        (fun z hz => hpre' z (List.mem_cons_of_mem _ hz))
      exact ⟨rfl, rfl⟩

/-- Two edits of an entry that stays in between are one. -/
theorem Edit.trans {l'' : Ledger α} {w : Usage α} (h : Edit l l' b id u (some w)) (h' : Edit l' l'' b id (some w) v) :
    Edit l l'' b id u v := by
  refine ⟨fun c hc => (h'.others c hc).trans (h.others c hc), ?_, h.before, h'.after⟩
  obtain ⟨pre, post, hl, hmid, hne⟩ := h.here
  obtain ⟨pre', post', hmid', hl'', hne'⟩ := h'.here
  have hw := h.after w rfl
  obtain ⟨rfl, rfl⟩ := split_unique id (by simpa using hmid.symm.trans hmid') hw hw
    (fun x hx => hne x (List.mem_append_left _ hx)) (fun x hx => hne' x (List.mem_append_left _ hx))
  exact ⟨pre, post, hl, hl'', hne⟩

/-- Releasing until the entry is gone takes it out, whatever its count. -/
theorem reclaimN_spec (b : BundleId) (id : Nat) : ∀ (n : Nat) (l : Ledger α) (u : Usage α), l.Sound →
    l.usage? b id = some u → max u.count 1 ≤ n →
    (reclaimN n l b id).uses = max u.count 1 ∧ (reclaimN n l b id).objects = u.object.toList.map (b, ·) ∧
      (reclaimN n l b id).ledger.Sound ∧ Edit l (reclaimN n l b id).ledger b id (some u) none := by
  intro n
  induction n with
  | zero =>
    intro l u _ _ hn
    omega
  | succ n ih =>
    intro l u hl hu hn
    rcases release_cases hl b id false with ⟨h, -⟩ | ⟨u', h, -, hc, hrel, hs, he⟩ | ⟨u', h, hc, hrel, hs, he⟩
    · rw [hu] at h
      cases h
    · obtain rfl := Option.some.inj (hu.symm.trans h)
      have hpair : l.release b id false = (.decremented (u.count - 1), (l.release b id false).2) := Prod.ext hrel rfl
      obtain ⟨h1, h2, h3, h4⟩ := ih _ _ hs he.usage?_after (by simp only; omega)
      rw [reclaimN, hpair]
      refine ⟨?_, h2, h3, he.trans h4⟩
      simp only [h1]
      omega
    · obtain rfl := Option.some.inj (hu.symm.trans h)
      have hpair : l.release b id false = (.flushed u.object, (l.release b id false).2) := Prod.ext hrel rfl
      rw [reclaimN, hpair]
      refine ⟨?_, rfl, hs, he⟩
      have := hc.resolve_left (by simp)
      simp only
      omega

theorem reclaim_spec (hl : l.Sound) {u : Usage α} (hu : l.usage? b id = some u) :
    (l.reclaim b id).uses = max u.count 1 ∧ (l.reclaim b id).objects = u.object.toList.map (b, ·) ∧
      (l.reclaim b id).ledger.Sound ∧ Edit l (l.reclaim b id).ledger b id (some u) none := by
  refine reclaimN_spec b id _ l u hl hu ?_
  simp only [count?, hu, Option.map_some, Option.getD_some]
  omega

def reclaimAll (d : Reclaimed α) (ps : List (BundleId × Nat)) : Reclaimed α :=
  ps.foldl (fun d p =>
    let e := d.ledger.reclaim p.1 p.2
    ⟨d.uses + e.uses, d.objects ++ e.objects, e.ledger⟩) d

theorem drain_eq (l : Ledger α) (h : Handle) : l.drain h = reclaimAll ⟨0, [], l⟩ (l.holders h) := rfl

def cachedAt (l : Ledger α) (p : BundleId × Nat) : List (BundleId × α) :=
  ((l.usage? p.1 p.2).bind (·.object)).toList.map (p.1, ·)

/-- How many releases remove a pair's entry. -/
def usesAt (l : Ledger α) (p : BundleId × Nat) : Nat := ((l.usage? p.1 p.2).map fun u => max u.count 1).getD 0

theorem reclaimAll_spec : ∀ (ps : List (BundleId × Nat)) (d : Reclaimed α), d.ledger.Sound → ps.Nodup →
    (∀ p ∈ ps, (d.ledger.usage? p.1 p.2).isSome) →
    (reclaimAll d ps).ledger.Sound ∧ (reclaimAll d ps).objects = d.objects ++ ps.flatMap (cachedAt d.ledger) ∧
      (∀ b, (reclaimAll d ps).ledger.usages b = (d.ledger.usages b).filter fun u => !ps.contains (b, u.reference.id)) ∧
      (reclaimAll d ps).uses = d.uses + (ps.map d.ledger.usesAt).sum := by
  intro ps
  induction ps with
  | nil =>
    intro d hd _ _
    refine ⟨hd, by simp [reclaimAll], fun b => ?_, rfl⟩
    simp [reclaimAll]
  | cons p ps ih =>
    intro d hd hps hsome
    obtain ⟨hp, hps⟩ := List.nodup_cons.mp hps
    obtain ⟨u, hu⟩ := Option.isSome_iff_exists.mp (hsome p (List.mem_cons_self ..))
    obtain ⟨huses, hobj, hs, he⟩ := reclaim_spec hd hu
    -- The pairs differ, so the entries of the others are as they were.
    have hother : ∀ q ∈ ps, (d.ledger.reclaim p.1 p.2).ledger.usage? q.1 q.2 = d.ledger.usage? q.1 q.2 := by
      intro q hq
      refine he.usage?_of_ne fun e => hp ?_
      rwa [← show q = p from e]
    obtain ⟨h1, h2, h3, h4⟩ := ih ⟨d.uses + (d.ledger.reclaim p.1 p.2).uses,
        d.objects ++ (d.ledger.reclaim p.1 p.2).objects, _⟩ hs hps fun q hq => by
      rw [hother q hq]
      exact hsome q (List.mem_cons_of_mem _ hq)
    refine ⟨h1, h2.trans ?_, fun b => (h3 b).trans ?_, h4.trans ?_⟩
    · have hcached : ps.flatMap (cachedAt (d.ledger.reclaim p.1 p.2).ledger) = ps.flatMap (cachedAt d.ledger) :=
        congrArg List.flatten (List.map_congr_left fun q hq => by rw [cachedAt, cachedAt, hother q hq])
      simp only [hcached, hobj, List.flatMap_cons, List.append_assoc]
      rw [cachedAt, hu]
      rfl
    · by_cases hb : b = p.1
      · subst hb
        obtain ⟨pre, post, hbefore, hafter, hne⟩ := he.here
        have hid := he.before u rfl
        have hskip : ∀ xs : List (Usage α), (∀ x ∈ xs, x.reference.id ≠ p.2) →
            (xs.filter fun x => !ps.contains (p.1, x.reference.id)) =
              xs.filter fun x => !(p :: ps).contains (p.1, x.reference.id) := by
          intro xs hxs
          refine List.filter_congr fun x hx => ?_
          have : ((p.1, x.reference.id) == p) = false := by
            rw [beq_eq_false_iff_ne]
            exact fun e => hxs x hx (congrArg Prod.snd e)
          rw [List.contains_cons, this, Bool.false_or]
        have hgone : (!(p :: ps).contains (p.1, u.reference.id)) = false := by
          rw [hid]
          simp
        rw [hbefore, hafter]
        simp only [Option.toList_none, Option.toList_some, List.append_nil, List.filter_append, List.filter_cons, hgone,
          List.filter_nil, Bool.false_eq_true, if_false]
        rw [hskip pre fun x hx => hne x (List.mem_append_left _ hx),
          hskip post fun x hx => hne x (List.mem_append_right _ hx)]
      · rw [he.others b hb]
        refine List.filter_congr fun x _ => ?_
        have : ((b, x.reference.id) == p) = false := by
          rw [beq_eq_false_iff_ne]
          exact fun e => hb (congrArg Prod.fst e)
        rw [List.contains_cons, this, Bool.false_or]
    · have hrest : ps.map (usesAt (d.ledger.reclaim p.1 p.2).ledger) = ps.map (usesAt d.ledger) :=
        List.map_congr_left fun q hq => by rw [usesAt, usesAt, hother q hq]
      simp only [hrest, huses, List.map_cons, List.sum_cons, Nat.add_assoc]
      rw [usesAt, hu]
      rfl

theorem filter_flatMap_fst {β γ δ : Type} [DecidableEq δ] {f : β → List (δ × γ)} {k : β → δ}
    (hf : ∀ e, ∀ p ∈ f e, p.1 = k e) (es : List β) (d : δ) :
    ((es.flatMap f).filter fun p => p.1 == d) = (es.filter fun e => k e == d).flatMap f := by
  induction es with
  | nil => rfl
  | cons e es ih =>
    rw [List.flatMap_cons, List.filter_append, ih]
    by_cases hd : k e = d
    · rw [List.filter_cons_of_pos (by simpa using hd), List.flatMap_cons, List.filter_eq_self.mpr]
      intro p hp
      simp [hf e p hp, hd]
    · rw [List.filter_cons_of_neg (by simpa using hd), List.filter_eq_nil_iff.mpr, List.nil_append]
      intro p hp
      simp [hf e p hp, hd]

theorem usages_of_mem (hl : l.Sound) {e : Entry BundleId (List (Usage α))} (he : e ∈ l.inUse.entries) :
    l.usages e.key = e.value :=
  Shelf.listAt_of_mem_entries Keying.bundle_lawful hl.tidy.isMap he

def entries (l : Ledger α) : List (BundleId × Usage α) := l.inUse.toList.flatMap fun e => e.2.map fun u => (e.1, u)

theorem mem_entries (hl : l.Sound) {e : BundleId × Usage α} : e ∈ l.entries ↔ e.2 ∈ l.usages e.1 := by
  constructor
  · intro he
    obtain ⟨p, hp, he⟩ := List.mem_flatMap.mp he
    obtain ⟨u, hu, rfl⟩ := List.mem_map.mp he
    obtain ⟨d, hd, rfl⟩ := List.mem_map.mp hp
    rw [usages_of_mem hl hd]
    exact hu
  · intro hu
    rw [usages, Shelf.listAt_eq] at hu
    cases hd : l.inUse.find? e.1 with
    | none =>
      rw [hd] at hu
      cases hu
    | some d =>
      rw [hd] at hu
      obtain ⟨hmem, hkey⟩ := hl.tidy.isMap.mem_of_find? Keying.bundle_lawful hd
      have hkey : d.key = e.1 := (Keying.same_bundle _ _).mp hkey
      refine List.mem_flatMap.mpr ⟨(d.key, d.value), List.mem_map.mpr ⟨d, hmem, rfl⟩, ?_⟩
      exact List.mem_map.mpr ⟨e.2, hu, by rw [hkey]⟩

/-- No pair of a bundle and a reference id has two entries. -/
theorem nodup_entries (hl : l.Sound) : (l.entries.map fun e => (e.1, e.2.reference.id)).Nodup := by
  have hflat : (l.entries.map fun e => (e.1, e.2.reference.id)) =
      l.inUse.entries.flatMap fun d => d.value.map fun u => (d.key, u.reference.id) := by
    rw [entries, Table.toList, List.flatMap_map, List.map_flatMap]
    simp only [List.map_map, Function.comp_def]
  rw [hflat]
  refine List.pairwise_flatMap.mpr ⟨fun d hd => ?_, ?_⟩
  · rw [← usages_of_mem hl hd]
    exact List.pairwise_map.mpr ((hl.distinct d.key).imp fun hne heq => hne (congrArg Prod.snd heq))
  · refine (hl.tidy.isMap.pairwise_entries Keying.bundle_lawful).imp fun {d e} hde p hp q hq => ?_
    obtain ⟨u, -, rfl⟩ := List.mem_map.mp hp
    obtain ⟨u', -, rfl⟩ := List.mem_map.mp hq
    intro heq
    rw [(Keying.same_bundle _ _).mpr (congrArg Prod.fst heq)] at hde
    cases hde

/-- A bundle uses a reference if it has an entry for it. -/
theorem exists_of_mem_bundles (hl : l.Sound) (h : b ∈ l.bundles id) : ∃ u ∈ l.usages b, u.reference.id = id := by
  obtain ⟨p, hp, rfl⟩ := List.mem_map.mp h
  obtain ⟨hp, hany⟩ := List.mem_filter.mp hp
  obtain ⟨e, he, rfl⟩ := List.mem_map.mp hp
  obtain ⟨u, hu, hid⟩ := List.any_eq_true.mp hany
  refine ⟨u, ?_, beq_iff_eq.mp hid⟩
  rw [usages_of_mem hl he]
  exact hu

/-- The holders among one bundle's entries, in their order. -/
theorem holders_filter (hl : l.Sound) (h : Handle) (b : BundleId) :
    ((l.holders h).filter fun p => p.1 == b) =
      ((l.usages b).filter (·.reference.target == h)).map fun u => (b, u.reference.id) := by
  have hentries : (l.inUse.entries.filter fun e => e.key == b) = (l.inUse.find? b).toList :=
    hl.tidy.isMap.entries_filter Keying.bundle_lawful b
  have hholders : l.holders h = l.inUse.entries.flatMap fun e =>
      (e.value.filter (·.reference.target == h)).map fun u => (e.key, u.reference.id) := by
    simp [holders, Table.toList, List.flatMap_map]
  rw [hholders, filter_flatMap_fst (k := Entry.key) (fun e p hp => by
    obtain ⟨u, -, rfl⟩ := List.mem_map.mp hp
    rfl), hentries, usages, Shelf.listAt_eq]
  cases hf : l.inUse.find? b with
  | none => rfl
  | some e =>
    have hkey : e.key = b := by
      have : e ∈ l.inUse.entries.filter fun e => e.key == b := by rw [hentries, hf]; simp
      simpa using (List.mem_filter.mp this).2
    simp [hkey]

theorem mem_holders (hl : l.Sound) {h : Handle} {p : BundleId × Nat} :
    p ∈ l.holders h ↔ ∃ u ∈ l.usages p.1, u.reference.target = h ∧ u.reference.id = p.2 := by
  have : p ∈ l.holders h ↔ p ∈ (l.holders h).filter fun q => q.1 == p.1 := by simp
  rw [this, holders_filter hl]
  simp only [List.mem_map, List.mem_filter, beq_iff_eq]
  constructor
  · rintro ⟨u, ⟨hu, ht⟩, he⟩
    exact ⟨u, hu, ht, congrArg Prod.snd he⟩
  · rintro ⟨u, hu, ht, he⟩
    exact ⟨u, ⟨hu, ht⟩, Prod.ext rfl he⟩

theorem nodup_holders (hl : l.Sound) (h : Handle) : (l.holders h).Nodup := by
  rw [List.nodup_iff_count]
  intro p
  rw [← List.count_filter (p := fun q => q.1 == p.1) (by simp), holders_filter hl]
  refine List.nodup_iff_count.mp (List.pairwise_map.mpr ?_) p
  exact ((hl.distinct p.1).sublist List.filter_sublist).imp fun hne e => hne (congrArg Prod.snd e)

theorem usage?_of_mem_holders (hl : l.Sound) {h : Handle} {p : BundleId × Nat} (hp : p ∈ l.holders h) :
    ∃ u, l.usage? p.1 p.2 = some u ∧ u.reference.target = h := by
  obtain ⟨u, hu, ht, hid⟩ := (mem_holders hl).mp hp
  refine ⟨u, ?_, ht⟩
  rw [← hid]
  exact usage?_of_mem hl hu

theorem drain_spec (hl : l.Sound) (h : Handle) :
    (l.drain h).ledger.Sound ∧ (l.drain h).objects = (l.holders h).flatMap (cachedAt l) ∧
      (∀ b, (l.drain h).ledger.usages b = (l.usages b).filter fun u => !(l.holders h).contains (b, u.reference.id)) ∧
      (l.drain h).uses = ((l.holders h).map l.usesAt).sum := by
  rw [drain_eq]
  have hspec := reclaimAll_spec (l.holders h) ⟨0, [], l⟩ hl (nodup_holders hl h) fun p hp => by
    obtain ⟨u, hu, -⟩ := usage?_of_mem_holders hl hp
    exact Option.isSome_iff_exists.mpr ⟨u, hu⟩
  rwa [Nat.zero_add] at hspec

theorem sound_drain (hl : l.Sound) (h : Handle) : (l.drain h).ledger.Sound := (drain_spec hl h).1

/-- A drain keeps the entries made for other registrations, in their order. -/
theorem usages_drain (hl : l.Sound) (h : Handle) (b : BundleId) :
    (l.drain h).ledger.usages b = (l.usages b).filter (·.reference.target != h) := by
  rw [(drain_spec hl h).2.2.1]
  refine List.filter_congr fun u hu => ?_
  rw [Bool.eq_iff_iff]
  simp only [Bool.not_eq_true', List.contains_eq_mem, decide_eq_false_iff_not, bne_iff_ne, ne_eq, not_iff_not]
  rw [mem_holders hl]
  constructor
  · rintro ⟨v, hv, ht, hid⟩
    have hv' := usage?_of_mem hl hv
    rw [show v.reference.id = u.reference.id from hid, usage?_of_mem hl hu] at hv'
    rw [Option.some.inj hv']
    exact ht
  · exact fun ht => ⟨u, hu, ht, rfl⟩

/-- An entry made for another registration stays, and none is made. -/
theorem usage?_drain (hl : l.Sound) (h : Handle) (hu : ∀ u, l.usage? b id = some u → u.reference.target ≠ h) :
    (l.drain h).ledger.usage? b id = l.usage? b id := by
  cases hfind : l.usage? b id with
  | none =>
    rw [usage?_eq, List.find?_eq_none] at hfind
    rw [usage?_eq, usages_drain hl, List.find?_eq_none]
    exact fun x hx => hfind x (List.mem_filter.mp hx).1
  | some u =>
    obtain ⟨hmem, hid⟩ := mem_of_usage? hfind
    have hkept : u ∈ (l.drain h).ledger.usages b := by
      rw [usages_drain hl]
      exact List.mem_filter.mpr ⟨hmem, by simpa using hu u hfind⟩
    rw [← hid]
    exact usage?_of_mem (sound_drain hl h) hkept

/-- It gives back what they had cached, bundle by bundle in their order. -/
theorem objects_drain (hl : l.Sound) (h : Handle) (b : BundleId) :
    (((l.drain h).objects.filter fun p => p.1 == b).map (·.2)) =
      ((l.usages b).filter (·.reference.target == h)).filterMap (·.object) := by
  have hfst : ∀ p : BundleId × Nat, ∀ q ∈ cachedAt l p, q.1 = p.1 := by
    intro p q hq
    obtain ⟨o, -, rfl⟩ := List.mem_map.mp hq
    rfl
  rw [(drain_spec hl h).2.1, filter_flatMap_fst (k := Prod.fst) hfst, holders_filter hl]
  have hmem : ∀ u ∈ (l.usages b).filter (·.reference.target == h), l.usage? b u.reference.id = some u :=
    fun u hu => usage?_of_mem hl (List.mem_filter.mp hu).1
  generalize (l.usages b).filter (·.reference.target == h) = us at hmem
  induction us with
  | nil => rfl
  | cons u us ih =>
    have ih := ih fun v hv => hmem v (List.mem_cons_of_mem _ hv)
    rw [List.map_cons, List.flatMap_cons, List.map_append, ih, cachedAt, hmem u (List.mem_cons_self ..)]
    cases ho : u.object <;> simp [ho]

def usesOf (l : Ledger α) (h : Handle) : List (BundleId × Usage α) := l.entries.filter (·.2.reference.target == h)

theorem holders_eq (l : Ledger α) (h : Handle) : l.holders h = (l.usesOf h).map fun e => (e.1, e.2.reference.id) := by
  simp only [holders, usesOf, entries, List.filter_flatMap, List.map_flatMap, List.filter_map, List.map_map,
    Function.comp_def]

/-- Where every entry counts a use, it takes back as many as the entries it takes out count, and
    gives back what they had cached, in one order. -/
theorem drain_usesOf (hl : l.Sound) {h : Handle} (hpos : ∀ e ∈ l.usesOf h, 0 < e.2.count) :
    (l.drain h).uses = ((l.usesOf h).map (·.2.count)).sum ∧
      (l.drain h).objects = (l.usesOf h).filterMap fun e => e.2.object.map (e.1, ·) := by
  obtain ⟨-, hobjects, -, huses⟩ := drain_spec hl h
  have hentry : ∀ e ∈ l.usesOf h, l.usage? e.1 e.2.reference.id = some e.2 :=
    fun e he => usage?_of_mem hl ((mem_entries hl).mp (List.mem_filter.mp he).1)
  rw [huses, hobjects, holders_eq, List.map_map, List.flatMap_map, List.filterMap_eq_flatMap_toList]
  constructor
  · refine congrArg List.sum (List.map_congr_left fun e he => ?_)
    simp only [Function.comp_apply, usesAt, hentry e he, Option.map_some, Option.getD_some]
    exact Nat.max_eq_left (hpos e he)
  · refine congrArg List.flatten (List.map_congr_left fun e he => ?_)
    simp only [cachedAt, hentry e he, Option.bind_some]
    cases e.2.object <;> rfl

end Ledger

end Switchboard
