/-
  Switchboard.Proofs.Table.Growth — how far a table grows.

  The capacity is a function of three numbers: what the table started with, where it stops, and the
  greatest size it ever had (`Desk.peak`). It is the least capacity on the way from the first to the
  second that has room for the third (`Table.roomFor`, `capacity_closed_form`). Hashes, removals and the
  order of the acts do not count.

  Doubling once is enough, for an insertion adds one entry, and that many more the double capacity always
  takes (`Table.load_succ_le`). The invariant is `Roll.Fits`: one act keeps it (`Fits.act`), and so does a
  run (`Shows.fits_run`).

  A limit that is asked for is rounded up to a power of two, so a table may pass it: `limit_passed_iff`
  says when, and `limit_passed` is a table that does.
-/

import Mathlib.Data.Nat.Log
import Mathlib.Data.Rat.Floor
import Mathlib.Tactic.Linarith
import Switchboard.Proofs.Table.Desk
import Switchboard.Table.Recipe

namespace Switchboard

open Desk (Act)

variable {κ ν : Type} {s : Keying κ}

namespace Table

/-! ## Powers of two -/

/-- Rounding up to a power of two. -/
theorem powerAbove_eq_pow_clog (n : Nat) : powerAbove n = 2 ^ Nat.clog 2 n := by
  unfold powerAbove
  split
  case isTrue hn => rw [Nat.clog_of_right_le_one hn, Nat.pow_zero]
  case isFalse hn =>
    have hpos : n - 1 ≠ 0 := by omega
    have hclog : Nat.clog 2 n = (n - 1).log2 + 1 := by
      refine Nat.le_antisymm (Nat.clog_le_of_le_pow ?_) ((Nat.lt_clog_iff_pow_lt Nat.one_lt_two).mpr ?_)
      · have hlt := Nat.lt_log2_self (n := n - 1)
        omega
      · have hle := Nat.log2_self_le hpos
        omega
    rw [hclog, Nat.one_shiftLeft]

/-- Of two capacities that come from one by doubling, the greater is at least the double of the other. -/
theorem two_mul_le_of_lt {c x y : Nat} (hx : ∃ i, x = c * 2 ^ i) (hy : ∃ i, y = c * 2 ^ i) (h : x < y) : 2 * x ≤ y := by
  obtain ⟨i, rfl⟩ := hx
  obtain ⟨j, rfl⟩ := hy
  have hij : i < j := (Nat.pow_lt_pow_iff_right (Nat.lt_add_one 1)).mp (Nat.lt_of_mul_lt_mul_left h)
  calc 2 * (c * 2 ^ i) = c * 2 ^ (i + 1) := by rw [Nat.pow_succ]; ring
    _ ≤ c * 2 ^ j := Nat.mul_le_mul_left c (Nat.pow_le_pow_right (Nat.zero_lt_two) hij)

/-! ## Load -/

theorem load_eq_ceil (c : Nat) : load c = ⌈(3 / 4 : ℚ) * c⌉₊ := by
  apply Nat.le_antisymm
  · have hle : (3 / 4 : ℚ) * c ≤ ⌈(3 / 4 : ℚ) * c⌉₊ := Nat.le_ceil _
    have hcast : ((3 * c : Nat) : ℚ) ≤ ((4 * ⌈(3 / 4 : ℚ) * c⌉₊ : Nat) : ℚ) := by
      push_cast
      linarith
    have hnat : 3 * c ≤ 4 * ⌈(3 / 4 : ℚ) * c⌉₊ := Nat.cast_le.mp hcast
    rw [load]
    omega
  · have hnat : 3 * c ≤ 4 * load c := by rw [load]; omega
    have hcast : ((3 * c : Nat) : ℚ) ≤ ((4 * load c : Nat) : ℚ) := Nat.cast_le.mpr hnat
    push_cast at hcast
    exact Nat.ceil_le.mpr (by linarith)

theorem load_mono {c c' : Nat} (h : c ≤ c') : load c ≤ load c' := by
  rw [load, load]
  omega

/-- The double capacity takes one more entry at least; for capacity 1 that rests on the rounding. -/
theorem load_succ_le {c : Nat} (hc : 0 < c) : load c + 1 ≤ load (2 * c) := by
  rcases Nat.eq_or_lt_of_le hc with rfl | hc
  · exact Nat.le_refl _
  · rw [load, load]
    omega

/-- The capacities from `c` to `m` by doubling that have room for `n` entries: three quarters are enough for
    them, or there is no greater capacity. -/
def roomFor (c m n : Nat) : Set Nat :=
  {x | (∃ i, x = c * 2 ^ i) ∧ x ≤ m ∧ (x = m ∨ n ≤ ⌈(3 / 4 : ℚ) * x⌉₊)}

variable {c m n x : Nat}

theorem mem_roomFor : x ∈ roomFor c m n ↔ (∃ i, x = c * 2 ^ i) ∧ x ≤ m ∧ (x = m ∨ n ≤ load x) := by
  rw [load_eq_ceil]
  rfl

/-- Who has room for more has room for less. -/
theorem roomFor_anti {n' : Nat} (h : n ≤ n') : roomFor c m n' ⊆ roomFor c m n := by
  rintro x ⟨hx, hle, hroom⟩
  exact ⟨hx, hle, hroom.imp_right (Nat.le_trans h)⟩

/-- A capacity that has room for one more stays the least. -/
theorem isLeast_roomFor_stay (h : IsLeast (roomFor c m n) x) {n' : Nat} (hn : n ≤ n') (hroom : x = m ∨ n' ≤ load x) :
    IsLeast (roomFor c m n') x := by
  obtain ⟨hpower, hle, -⟩ := mem_roomFor.mp h.1
  exact ⟨mem_roomFor.mpr ⟨hpower, hle, hroom⟩, fun y hy => h.2 (roomFor_anti hn hy)⟩

/-- One that has not is doubled, and that is enough for one more entry. -/
theorem isLeast_roomFor_double (h : IsLeast (roomFor c m n) x) (hm : ∃ i, m = c * 2 ^ i) (hx : 0 < x) (hlt : x < m)
    (hfull : n = load x) : IsLeast (roomFor c m (n + 1)) (2 * x) := by
  obtain ⟨hpower, hle, -⟩ := mem_roomFor.mp h.1
  refine ⟨mem_roomFor.mpr ⟨?_, two_mul_le_of_lt hpower hm hlt, Or.inr (hfull ▸ load_succ_le hx)⟩, fun y hy => ?_⟩
  · obtain ⟨i, rfl⟩ := hpower
    exact ⟨i + 1, by rw [Nat.pow_succ]; ring⟩
  · have hxy : x ≤ y := h.2 (roomFor_anti (Nat.le_succ n) hy)
    obtain ⟨hypower, -, hroom⟩ := mem_roomFor.mp hy
    have hne : x ≠ y := by
      rintro rfl
      rcases hroom with hroom | hroom <;> omega
    exact two_mul_le_of_lt hpower hypower (Nat.lt_of_le_of_ne hxy hne)

/-- When the least capacity is the greatest: the way started there, or half of it had no room. -/
theorem isLeast_roomFor_greatest {i e : Nat} (h : IsLeast (roomFor (2 ^ i) (2 ^ (e + 1)) n) x) :
    x = 2 ^ (e + 1) ↔ e < i ∨ load (2 ^ e) < n := by
  obtain ⟨⟨j, hj⟩, hle, hroom⟩ := mem_roomFor.mp h.1
  rw [← Nat.pow_add] at hj
  have hij : i + j ≤ e + 1 := (Nat.pow_le_pow_iff_right Nat.one_lt_two).mp (hj ▸ hle)
  constructor
  · intro hx
    by_contra hnot
    obtain ⟨hie, hload⟩ : i ≤ e ∧ n ≤ load (2 ^ e) := by omega
    have hhalf : 2 ^ e ∈ roomFor (2 ^ i) (2 ^ (e + 1)) n :=
      mem_roomFor.mpr ⟨⟨e - i, by rw [← Nat.pow_add, Nat.add_sub_cancel' hie]⟩,
        Nat.pow_le_pow_right Nat.zero_lt_two (Nat.le_succ e), Or.inr hload⟩
    have hxe : 2 ^ (e + 1) ≤ 2 ^ e := hx ▸ h.2 hhalf
    exact absurd ((Nat.pow_le_pow_iff_right Nat.one_lt_two).mp hxe) (Nat.not_succ_le_self e)
  · intro hnot
    by_contra hx
    have hje : i + j ≤ e := by
      by_contra hje
      exact hx (hj.trans (congrArg (2 ^ ·) (by omega)))
    have hload : n ≤ load (2 ^ e) :=
      Nat.le_trans (hroom.resolve_left hx) (load_mono (hj ▸ Nat.pow_le_pow_right Nat.zero_lt_two hje))
    omega

theorem isLeast_roomFor_zero (hcm : c ≤ m) : IsLeast (roomFor c m 0) c := by
  refine ⟨mem_roomFor.mpr ⟨⟨0, (Nat.mul_one c).symm⟩, hcm, Or.inr (Nat.zero_le _)⟩, fun y hy => ?_⟩
  obtain ⟨⟨i, rfl⟩, -⟩ := mem_roomFor.mp hy
  exact Nat.le_mul_of_pos_right c (Nat.two_pow_pos i)

end Table

/-! ## The invariant -/

namespace Roll

open Table

variable {ρ : Roll s ν} {c m n : Nat}

/-- The capacity is the least from `c` to `m` that has room for `n` entries, and there are no more. -/
structure Fits (ρ : Roll s ν) (c m n : Nat) : Prop where
  least : IsLeast (roomFor c m n) ρ.capacity
  limit : ρ.limit = m
  size : ρ.lines.length ≤ n

theorem Fits.size_le_load (h : ρ.Fits c m n) (hlt : ρ.capacity < m) : n ≤ load ρ.capacity := by
  obtain ⟨-, -, hroom⟩ := mem_roomFor.mp h.least.1
  exact hroom.resolve_left (Nat.ne_of_lt hlt)

/-- Lines come and go, and the capacity stays. -/
theorem Fits.of_lines (h : ρ.Fits c m n) {ρ' : Roll s ν} (hcapacity : ρ'.capacity = ρ.capacity)
    (hlimit : ρ'.limit = ρ.limit) (hlength : ρ'.lines.length ≤ ρ.lines.length) :
    ρ'.Fits c m (max n ρ'.lines.length) := by
  have hmax : max n ρ'.lines.length = n := Nat.max_eq_left (Nat.le_trans hlength h.size)
  rw [hmax]
  exact ⟨hcapacity ▸ h.least, hlimit.trans h.limit, Nat.le_trans hlength h.size⟩

/-- An insertion doubles the capacity if it must. -/
theorem Fits.insert (h : ρ.Fits c m n) (hm : ∃ i, m = c * 2 ^ i) (hpos : 0 < ρ.capacity) (k : κ) (v : ν) :
    (ρ.insert k v).Fits c m (max n (ρ.insert k v).lines.length) := by
  have hlength : (ρ.insert k v).lines.length = ρ.lines.length + 1 := List.length_append
  rw [hlength]
  refine ⟨?_, h.limit, hlength ▸ Nat.le_max_right ..⟩
  show IsLeast _ ρ.roomy
  rw [roomy, h.limit]
  have hsize := h.size
  split
  case isTrue hfull =>
    -- Full for this insertion and not before: now is the peak.
    have hload := h.size_le_load hfull.1
    have hn : n = load ρ.capacity := by omega
    have hmax : max n (ρ.lines.length + 1) = n + 1 := by omega
    rw [hmax]
    exact isLeast_roomFor_double h.least hm hpos hfull.1 hn
  case isFalse hfull =>
    refine isLeast_roomFor_stay h.least (Nat.le_max_left ..) ?_
    by_cases hlt : ρ.capacity < m
    · have hload := h.size_le_load hlt
      exact Or.inr (by omega)
    · obtain ⟨-, hle, -⟩ := mem_roomFor.mp h.least.1
      exact Or.inl (by omega)

theorem length_amendAll_le (l : List (Line κ ν)) (ys : List (Nat × Option ν)) :
    (Line.amendAll l ys).length ≤ l.length := by
  have hle := (Line.labels_amendAll_sublist l ys).length_le
  rwa [List.length_map, List.length_map] at hle

theorem Fits.act {b : Book s ν} (h : b.roll.Fits c m n) (hm : ∃ i, m = c * 2 ^ i) (hb : b.roll.Sound) (a : Act κ ν) :
    (b.act a).2.roll.Fits c m (max n (b.act a).2.roll.lines.length) := by
  rcases act_cases b a with ⟨ys, hact⟩ | ⟨k, v, -, hact⟩ | ⟨-, hact⟩
  · rw [hact]
    exact h.of_lines rfl rfl (length_amendAll_le b.roll.lines ys)
  · rw [hact]
    exact h.insert hm hb.pos k v
  · rw [hact]
    exact h.of_lines rfl rfl (Nat.zero_le _)

/-- An act leaves the capacity as it is, or it inserts an entry and doubles it. -/
theorem capacity_act (b : Book s ν) (a : Act κ ν) :
    (b.act a).2.roll.capacity = b.roll.capacity ∨
    ((b.act a).2.roll.capacity = 2 * b.roll.capacity ∧ (b.act a).2.roll.lines.length = b.roll.lines.length + 1) := by
  rcases act_cases b a with ⟨ys, hact⟩ | ⟨k, v, -, hact⟩ | ⟨-, hact⟩
  · rw [hact]
    exact Or.inl rfl
  · rw [hact]
    show b.roll.roomy = _ ∨ (b.roll.roomy = _ ∧ _)
    rw [roomy]
    split
    · exact Or.inr ⟨rfl, List.length_append⟩
    · exact Or.inl rfl
  · rw [hact]
    exact Or.inl rfl

end Roll

namespace Desk

open Table

def peak (d : Desk s ν) : List (Act κ ν) → Nat
  | [] => d.table.size
  | a :: as => max d.table.size ((d.act a).2.peak as)

variable {d : Desk s ν} {b : Book s ν} {c m n : Nat}

theorem size_le_peak (d : Desk s ν) (as : List (Act κ ν)) : d.table.size ≤ d.peak as := by
  cases as with
  | nil => exact Nat.le_refl _
  | cons a as => exact Nat.le_max_left ..

theorem Shows.fits_run (h : d.Shows b) (hm : ∃ i, m = c * 2 ^ i) (hfits : b.roll.Fits c m n) (as : List (Act κ ν)) :
    (b.run as).2.roll.Fits c m (max n (d.peak as)) := by
  have hsize : d.table.size ≤ n := h.table.size ▸ hfits.size
  induction as generalizing d b n with
  | nil =>
    rw [peak, Nat.max_eq_left hsize]
    exact hfits
  | cons a as ih =>
    obtain ⟨-, hact⟩ := h.act a
    have hlater := size_le_peak (d.act a).2 as
    have hrun := ih hact (hfits.act hm h.sound a) (hact.table.size ▸ Nat.le_max_right ..)
    rw [← hact.table.size] at hrun
    have hmax : max n (d.peak (a :: as)) = max (max n (d.act a).2.table.size) ((d.act a).2.peak as) := by
      rw [peak]
      omega
    rw [hmax]
    exact hrun

theorem Shows.capacity_act (h : d.Shows b) (a : Act κ ν) : (d.act a).2.table.capacity = d.table.capacity ∨
    ((d.act a).2.table.capacity = 2 * d.table.capacity ∧ (d.act a).2.table.size = d.table.size + 1) := by
  rw [(h.act a).2.table.capacity, h.table.capacity, (h.act a).2.table.size, h.table.size]
  exact Roll.capacity_act b a

theorem Shows.capacity_le_run (h : d.Shows b) (as : List (Act κ ν)) :
    d.table.capacity ≤ (d.run as).2.table.capacity := by
  induction as generalizing d b with
  | nil => exact Nat.le_refl _
  | cons a as ih =>
    have hstep : d.table.capacity ≤ (d.act a).2.table.capacity := by
      rcases h.capacity_act a with hact | ⟨hact, -⟩ <;> omega
    exact Nat.le_trans hstep (ih (h.act a).2)

/-! ## The capacity in closed form -/

theorem effectiveLimit_eq (limit : Nat) : effectiveLimit limit = 2 ^ Nat.clog 2 (min (max limit 1) (2 ^ 30)) := by
  rw [effectiveLimit, powerAbove_eq_pow_clog]
  rfl

theorem startCapacity_eq (capacity limit : Nat) :
    startCapacity capacity limit = 2 ^ Nat.clog 2 (min (max capacity 1) (effectiveLimit limit)) :=
  powerAbove_eq_pow_clog _

/-- The limit is a capacity on the way from the first one. -/
theorem effectiveLimit_eq_mul (capacity limit : Nat) :
    ∃ i, effectiveLimit limit = startCapacity capacity limit * 2 ^ i := by
  obtain ⟨j, hj⟩ := Roll.powerAbove_eq (min (max limit 1) maxCapacity)
  have hle : Nat.clog 2 (min (max capacity 1) (effectiveLimit limit)) ≤ j := by
    refine Nat.clog_le_of_le_pow ?_
    rw [← hj]
    exact Nat.min_le_right ..
  refine ⟨j - Nat.clog 2 (min (max capacity 1) (effectiveLimit limit)), ?_⟩
  rw [startCapacity_eq, ← Nat.pow_add, Nat.add_sub_cancel' hle]
  exact hj

theorem fits_run (s : Keying κ) (ν : Type) (capacity limit : Nat) (acts : List (Act κ ν)) :
    ((Book.start s ν capacity limit).run acts).2.roll.Fits (startCapacity capacity limit) (effectiveLimit limit)
      ((start s ν capacity limit).peak acts) := by
  have hle : startCapacity capacity limit ≤ effectiveLimit limit := by
    obtain ⟨i, hi⟩ := effectiveLimit_eq_mul capacity limit
    exact hi ▸ Nat.le_mul_of_pos_right _ (Nat.two_pow_pos i)
  have hfits : (Book.start s ν capacity limit).roll.Fits (startCapacity capacity limit) (effectiveLimit limit) 0 :=
    ⟨isLeast_roomFor_zero hle, rfl, Nat.le_refl _⟩
  have hrun := (shows_start s ν capacity limit).fits_run (effectiveLimit_eq_mul capacity limit) hfits acts
  rwa [Nat.zero_max] at hrun

theorem power_capacity (s : Keying κ) (ν : Type) (capacity limit : Nat) (acts : List (Act κ ν)) :
    ∃ k, ((start s ν capacity limit).run acts).2.table.capacity = 2 ^ k := by
  have hshows := ((shows_start s ν capacity limit).run acts).2
  rw [hshows.table.capacity]
  exact hshows.sound.power

theorem isLeast_capacity (s : Keying κ) (ν : Type) (capacity limit : Nat) (acts : List (Act κ ν)) :
    IsLeast (roomFor (startCapacity capacity limit) (effectiveLimit limit) ((start s ν capacity limit).peak acts))
      ((start s ν capacity limit).run acts).2.table.capacity := by
  rw [((shows_start s ν capacity limit).run acts).2.table.capacity]
  exact (fits_run s ν capacity limit acts).least

/-- Whatever the run, the capacity is the least that had room for the entries there were at most; it doubles only at
    an insertion and never falls. -/
theorem capacity_closed_form (s : Keying κ) (ν : Type) (capacity limit : Nat) (acts : List (Act κ ν)) :
    let M := 2 ^ Nat.clog 2 (min (max limit 1) (2 ^ 30))
    let c₀ := 2 ^ Nat.clog 2 (min (max capacity 1) M)
    let d₀ := start s ν capacity limit
    let d := (d₀.run acts).2
    IsLeast (roomFor c₀ M (d₀.peak acts)) d.table.capacity ∧
      (∃ k, d.table.capacity = 2 ^ k) ∧
      (d.table.capacity < M → d.table.size ≤ ⌈(3 / 4 : ℚ) * d.table.capacity⌉₊) ∧
      (∀ a, (d.act a).2.table.capacity = d.table.capacity ∨
        ((d.act a).2.table.capacity = 2 * d.table.capacity ∧ (d.act a).2.table.size = d.table.size + 1)) ∧
      (∀ later, d.table.capacity ≤ (d.run later).2.table.capacity) ∧
      ∀ {κ' ν' : Type} (s' : Keying κ') (acts' : List (Act κ' ν')),
        (start s' ν' capacity limit).peak acts' = d₀.peak acts →
          ((start s' ν' capacity limit).run acts').2.table.capacity = d.table.capacity := by
  intro M c₀ d₀ d
  have hM : M = effectiveLimit limit := (effectiveLimit_eq limit).symm
  have hc₀ : c₀ = startCapacity capacity limit := by rw [startCapacity_eq, ← hM]
  have hshows := ((shows_start s ν capacity limit).run acts).2
  have hleast := isLeast_capacity s ν capacity limit acts
  rw [← hM, ← hc₀] at hleast
  refine ⟨hleast, power_capacity s ν capacity limit acts, fun hlt => ?_, hshows.capacity_act, hshows.capacity_le_run,
    fun s' acts' hpeak => ?_⟩
  · have hfits := fits_run s ν capacity limit acts
    rw [← load_eq_ceil, hshows.table.size, hshows.table.capacity]
    rw [hM, hshows.table.capacity] at hlt
    exact Nat.le_trans hfits.size (hfits.size_le_load hlt)
  · have hleast' := isLeast_capacity s' _ capacity limit acts'
    rw [hpeak, ← hM, ← hc₀] at hleast'
    exact hleast'.unique hleast

/-- Three entries at most, under a keying that tells keys apart by hash and one that does not. -/
theorem capacity_closed_form_emptied :
    let s : Keying Key := Recipe.keying ⟨.low, .exact, none⟩
    let s' : Keying Key := Recipe.keying ⟨.const 0, .exact, none⟩
    let acts : List (Act Key Nat) := [.key (.int 1) (.put 10), .key (.int 5) (.put 50), .key (.int 2) (.put 20), .clear]
    let acts' : List (Act Key Nat) := [.key (.int 3) (.put 1), .key (.int 4) (.put 2), .key (.int 3) .remove,
      .key (.int 5) (.put 3), .key (.int 6) (.put 4)]
    let t := ((start s Nat 1 7).run acts).2.table
    (t.capacity < 2 ^ Nat.clog 2 (min (max 7 1) (2 ^ 30)) ∧ t.size ≤ ⌈(3 / 4 : ℚ) * t.capacity⌉₊) ∧
    ((start s' Nat 1 7).peak acts' = (start s Nat 1 7).peak acts ∧
      ((start s' Nat 1 7).run acts').2.table.capacity = t.capacity) ∧
    (start s Nat 1 7).peak acts = 3 ∧ t.capacity = 4 := by
  intro s s' acts acts'
  have hgrown := capacity_closed_form s Nat 1 7 acts
  have hlt : ((start s Nat 1 7).run acts).2.table.capacity < 2 ^ Nat.clog 2 (min (max 7 1) (2 ^ 30)) := by
    rw [← effectiveLimit_eq]
    decide +kernel
  have hpeak : (start s' Nat 1 7).peak acts' = (start s Nat 1 7).peak acts := by decide +kernel
  exact ⟨⟨hlt, hgrown.2.2.1 hlt⟩, ⟨hpeak, hgrown.2.2.2.2.2 s' acts' hpeak⟩, by decide +kernel, by decide +kernel⟩

/-! ## The limit that was asked for -/

/-- Between two powers of two. -/
theorem clog_eq_log_succ {n : Nat} (hpos : 1 ≤ n) (hn : ∀ k, n ≠ 2 ^ k) : Nat.clog 2 n = Nat.log 2 n + 1 := by
  have hle : 2 ^ Nat.log 2 n ≤ n := Nat.pow_log_le_self 2 (by omega)
  have hlt : 2 ^ Nat.log 2 n < n := Nat.lt_of_le_of_ne hle (hn _).symm
  refine Nat.le_antisymm (Nat.clog_le_of_le_pow ?_) ((Nat.lt_clog_iff_pow_lt Nat.one_lt_two).mpr hlt)
  exact Nat.le_of_lt (Nat.lt_pow_succ_log_self Nat.one_lt_two n)

/-- The bucket count stays below the limit rounded up to a power of two. It passes the limit itself if and only if
    that is no power of two, and the greatest one below it was too small: for the capacity that was asked for, or
    for the entries there were at most. -/
theorem limit_passed_iff (s : Keying κ) (ν : Type) (capacity limit : Nat) (acts : List (Act κ ν)) (hpos : 1 ≤ limit)
    (hmax : limit ≤ maxCapacity) :
    let d₀ := start s ν capacity limit
    let d := (d₀.run acts).2
    d.table.capacity ≤ 2 ^ Nat.clog 2 limit ∧
      (limit < d.table.capacity ↔ (∀ k, limit ≠ 2 ^ k) ∧
        (2 ^ Nat.log 2 limit < capacity ∨ ⌈(3 / 4 : ℚ) * (2 ^ Nat.log 2 limit : Nat)⌉₊ < d₀.peak acts)) := by
  intro d₀ d
  have hlimit : effectiveLimit limit = 2 ^ Nat.clog 2 limit := by
    rw [effectiveLimit, powerAbove_eq_pow_clog, Nat.max_eq_left hpos, Nat.min_eq_left hmax]
  have hleast := isLeast_capacity s ν capacity limit acts
  obtain ⟨-, hle, -⟩ := mem_roomFor.mp hleast.1
  rw [hlimit] at hle
  refine ⟨hle, ?_⟩
  by_cases hpower : ∃ k, limit = 2 ^ k
  · obtain ⟨k, rfl⟩ := hpower
    rw [Nat.clog_pow 2 k Nat.one_lt_two] at hle
    exact iff_of_false (Nat.not_lt.mpr hle) fun h => h.1 k rfl
  · have hne : ∀ k, limit ≠ 2 ^ k := fun k hk => hpower ⟨k, hk⟩
    have hbelow : 2 ^ Nat.log 2 limit ≤ limit := Nat.pow_log_le_self 2 (by omega)
    have hclog := clog_eq_log_succ hpos hne
    rw [startCapacity_eq, hlimit, hclog] at hleast
    rw [hclog] at hle
    -- Above the limit there is no power of two but the greatest capacity.
    have hgreatest : limit < d.table.capacity ↔ d.table.capacity = 2 ^ (Nat.log 2 limit + 1) := by
      constructor
      · intro hlt
        refine Nat.le_antisymm hle ?_
        obtain ⟨k, hk⟩ := power_capacity s ν capacity limit acts
        rw [hk] at hlt ⊢
        have hlog : Nat.log 2 limit < k := (Nat.pow_lt_pow_iff_right Nat.one_lt_two).mp (Nat.lt_of_le_of_lt hbelow hlt)
        exact Nat.pow_le_pow_right Nat.zero_lt_two hlog
      · intro hd
        exact hd ▸ Nat.lt_pow_succ_log_self Nat.one_lt_two limit
    have hstart : 2 ^ Nat.log 2 limit < min (max capacity 1) (2 ^ (Nat.log 2 limit + 1)) ↔
        2 ^ Nat.log 2 limit < capacity := by
      have hhalf : 2 ^ (Nat.log 2 limit + 1) = 2 ^ Nat.log 2 limit * 2 := Nat.pow_succ ..
      have hone : 0 < 2 ^ Nat.log 2 limit := Nat.two_pow_pos _
      omega
    rw [hgreatest, isLeast_roomFor_greatest hleast, load_eq_ceil, Nat.lt_clog_iff_pow_lt Nat.one_lt_two, hstart]
    exact (and_iff_right hne).symm

/-- A limit of 5, and the table passes it for its fourth entry: 4 buckets take three. -/
theorem limit_passed_iff_fourth :
    let s : Keying Key := Recipe.keying ⟨.low, .exact, none⟩
    let acts : List (Act Key Nat) := [.key (.int 1) (.put 10), .key (.int 5) (.put 50), .key (.int 2) (.put 20),
      .key (.int 9) (.put 90)]
    1 ≤ 5 ∧ 5 ≤ maxCapacity ∧ ((start s Nat 1 5).run acts).2.table.capacity ≤ 2 ^ Nat.clog 2 5 ∧
      5 < ((start s Nat 1 5).run acts).2.table.capacity ∧
      (2 ^ Nat.log 2 5 < 1 ∨ ⌈(3 / 4 : ℚ) * (2 ^ Nat.log 2 5 : Nat)⌉₊ < (start s Nat 1 5).peak acts) := by
  intro s acts
  have hpassed := limit_passed_iff s Nat 1 5 acts (by decide) (by decide)
  have hlt : 5 < ((start s Nat 1 5).run acts).2.table.capacity := by decide +kernel
  exact ⟨by decide, by decide, hpassed.1, hlt, (hpassed.2.mp hlt).2⟩

/-- A table that was to stop at 3 buckets has 4. -/
theorem limit_passed :
    let s : Keying Key := Recipe.keying ⟨.const 0, .exact, none⟩
    ¬ ∀ (capacity limit : Nat) (acts : List (Act Key Nat)), 1 ≤ limit → limit ≤ maxCapacity →
      ((start s Nat capacity limit).run acts).2.table.capacity ≤ limit := by
  intro s h
  let acts : List (Act Key Nat) := [.key (.int 1) (.put 10), .key (.int 2) (.put 20), .key (.int 3) (.put 30)]
  have hfour : ¬ ((start s Nat 1 3).run acts).2.table.capacity ≤ 3 := by decide +kernel
  exact hfour (h 1 3 acts (by decide) (by decide))

end Desk

end Switchboard
