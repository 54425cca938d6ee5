/-
  Switchboard.Proofs.Table.Roll — what a table is meant to do, said of a list.

  A roll is the list of the live entries in the order of their insertion, each with the number of
  its insertion (`Line`). A question about a key is answered by a scan of the list for the first
  entry that answers to it (`Roll.scan`), and what comes of it is said of that entry alone
  (`KeyAct.answer`, `KeyAct.outcome`). The capacity counts only where the entries are gone through
  one after the other: then they are taken bucket by bucket, in each in the order of insertion
  (`Roll.listing`). A cursor is a place in that listing (`Mark`).

  The roll changes structurally, and its cursors go stale, when it is cleared or when its length
  changes (`Roll.become`).
-/

import Mathlib.Algebra.Group.Nat.Defs
import Mathlib.Data.List.InsertIdx
import Mathlib.Data.List.Nodup
import Switchboard.Proofs.Table.Layout
import Switchboard.Table.Desk

namespace Switchboard

/-! ## Numbered entries -/

/-- An entry with the number of its insertion. -/
abbrev Line (κ ν : Type) : Type := Nat × Entry κ ν

namespace Line

variable {κ ν : Type}

def pair (p : Line κ ν) : κ × ν := (p.2.key, p.2.value)

def label (p : Line κ ν) : Nat × UInt32 × κ := (p.1, p.2.hash, p.2.key)

def write (p : Line κ ν) (v : ν) : Line κ ν := (p.1, { p.2 with value := v })

/-- The value of line `n` becomes `x`; if that is none, the line goes. -/
def amend (l : List (Line κ ν)) (n : Nat) (x : Option ν) : List (Line κ ν) :=
  l.filterMap fun p => if p.1 = n then x.map p.write else some p

def amendAll (l : List (Line κ ν)) (xs : List (Nat × Option ν)) : List (Line κ ν) :=
  xs.foldl (fun l x => amend l x.1 x.2) l

/-- What a closure makes of the lines in turn, when it was asked of `seen` before. -/
def verdicts (keep : List (κ × ν) → Option ν) : List (κ × ν) → List (Line κ ν) → List (Nat × Option ν)
  | _, [] => []
  | seen, p :: l => (p.1, keep (seen ++ [p.pair])) :: verdicts keep (seen ++ [p.pair]) l

def overwrite (write : List ν → ν) (seen : List (κ × ν)) : Option ν := some (write (seen.map (·.2)))

def strand (capacity : Nat) (l : List (Line κ ν)) (i : Nat) : List (Line κ ν) :=
  l.filter fun p => Table.bucketOf p.2.hash capacity == i

def strands (capacity : Nat) (l : List (Line κ ν)) : List (List (Line κ ν)) :=
  (List.range capacity).map (strand capacity l)

def arranged (capacity : Nat) (l : List (Line κ ν)) : List (Line κ ν) := (strands capacity l).flatten

def Rising (l : List (Line κ ν)) : Prop := l.Pairwise fun p q => p.1 < q.1

variable {l : List (Line κ ν)} {n : Nat} {x : Option ν} {c i : Nat}

/-! ### Numbers -/

section Number

variable {β : Type} {xs : List (Nat × β)} {y z : Nat × β}

theorem eq_of_number (hxs : (xs.map (·.1)).Nodup) (hy : y ∈ xs) (hz : z ∈ xs) (h : y.1 = z.1) : y = z :=
  List.inj_on_of_nodup_map hxs hy hz h

theorem find?_number (hxs : (xs.map (·.1)).Nodup) (hy : y ∈ xs) : xs.find? (·.1 == y.1) = some y := by
  have hsome : (xs.find? (·.1 == y.1)).isSome := List.find?_isSome.mpr ⟨y, hy, by simp⟩
  obtain ⟨z, hz⟩ := Option.isSome_iff_exists.mp hsome
  have hzy : z.1 = y.1 := beq_iff_eq.mp (List.find?_some (p := fun z : Nat × β => z.1 == y.1) hz)
  exact eq_of_number hxs (List.mem_of_find?_eq_some hz) hy hzy ▸ hz

end Number

/-! ### Amending one line -/

theorem amend_cons (p : Line κ ν) (l : List (Line κ ν)) (n : Nat) (x : Option ν) :
    amend (p :: l) n x = (if p.1 = n then (x.map p.write).toList else [p]) ++ amend l n x := by
  rw [amend, List.filterMap_cons, amend]
  by_cases hp : p.1 = n
  · cases x <;> simp [hp]
  · simp [hp]

theorem amend_of_not_mem (hn : n ∉ l.map (·.1)) (x : Option ν) : amend l n x = l := by
  induction l with
  | nil => rfl
  | cons p l ih =>
    rw [List.map_cons, List.mem_cons, not_or] at hn
    rw [amend_cons, if_neg (Ne.symm hn.1), ih hn.2]
    rfl

theorem amend_append (l l' : List (Line κ ν)) (n : Nat) (x : Option ν) :
    amend (l ++ l') n x = amend l n x ++ amend l' n x := List.filterMap_append ..

theorem labels_amend_some (l : List (Line κ ν)) (n : Nat) (v : ν) :
    (amend l n (some v)).map label = l.map label := by
  induction l with
  | nil => rfl
  | cons p l ih =>
    rw [amend_cons, List.map_append, ih]
    split <;> rfl

theorem labels_amend_none (l : List (Line κ ν)) (n : Nat) :
    (amend l n none).map label = (l.map label).filter (·.1 != n) := by
  induction l with
  | nil => rfl
  | cons p l ih =>
    rw [amend_cons, List.map_append, ih, List.map_cons, List.filter_cons]
    by_cases hp : p.1 = n <;> simp [hp, label]

theorem labels_amend_sublist (l : List (Line κ ν)) (n : Nat) (x : Option ν) :
    ((amend l n x).map label).Sublist (l.map label) := by
  cases x with
  | none => rw [labels_amend_none]; exact List.filter_sublist
  | some v => rw [labels_amend_some]

/-- An amendment keeps an entry in its bucket. -/
theorem strand_amend (c : Nat) (l : List (Line κ ν)) (i n : Nat) (x : Option ν) :
    strand c (amend l n x) i = amend (strand c l i) n x := by
  rw [strand, amend, List.filter_filterMap, strand, amend, List.filterMap_filter]
  refine List.filterMap_congr fun p _ => ?_
  have hkept : ∀ q, (if p.1 = n then x.map p.write else some p) = some q → q.2.hash = p.2.hash := by
    intro q hq
    split at hq
    · obtain ⟨v, -, rfl⟩ := Option.map_eq_some_iff.mp hq
      rfl
    · rw [Option.some.inj hq]
  cases hamended : if p.1 = n then x.map p.write else some p with
  | none => exact (ite_self none).symm
  | some q => rw [Option.filter_some, hkept q hamended]

/-- Values do not tell where an entry falls. -/
theorem labels_strand {l' : List (Line κ ν)} (h : l.map label = l'.map label) (c i : Nat) :
    (strand c l i).map label = (strand c l' i).map label := by
  have hfilter : ∀ m : List (Line κ ν),
      (strand c m i).map label = (m.map label).filter fun q => Table.bucketOf q.2.1 c == i := by
    intro m
    rw [List.filter_map]
    rfl
  rw [hfilter, hfilter, h]

theorem labels_strands {l' : List (Line κ ν)} (h : l.map label = l'.map label) (c : Nat) :
    (strands c l).map (·.map label) = (strands c l').map (·.map label) := by
  rw [strands, strands, List.map_map, List.map_map]
  exact List.map_congr_left fun i _ => labels_strand h c i

/-- Where numbers differ, one line is amended in its place. -/
theorem amend_at (hl : (l.map (·.1)).Nodup) {j : Nat} {p : Line κ ν} (hj : l[j]? = some p) (x : Option ν) :
    amend l p.1 x = l.take j ++ (x.map p.write).toList ++ l.drop (j + 1) := by
  induction l generalizing j with
  | nil => cases hj
  | cons q l ih =>
    obtain ⟨hq, hl⟩ := List.nodup_cons.mp hl
    rw [amend_cons]
    cases j with
    | zero =>
      obtain rfl := Option.some.inj hj
      rw [if_pos rfl, amend_of_not_mem hq]
      rfl
    | succ j =>
      have hj : l[j]? = some p := hj
      have hne : q.1 ≠ p.1 := fun h => hq (List.mem_map.mpr ⟨_, List.mem_of_getElem? hj, h.symm⟩)
      rw [if_neg hne, ih hl hj]
      rfl

theorem amend_eq_modify (hl : (l.map (·.1)).Nodup) {j : Nat} {p : Line κ ν} (hj : l[j]? = some p) {v : ν}
    {f : Line κ ν → Line κ ν} (hf : f p = p.write v) : amend l p.1 (some v) = l.modify j f := by
  obtain ⟨hlt, hp⟩ := List.getElem?_eq_some_iff.mp hj
  rw [amend_at hl hj, List.modify_eq_take_cons_drop hlt, hp, hf, List.append_assoc]
  rfl

/-- A line that goes lets those after it move up. -/
theorem amend_eq_eraseIdx (hl : (l.map (·.1)).Nodup) {j : Nat} {p : Line κ ν} (hj : l[j]? = some p) :
    amend l p.1 none = l.eraseIdx j := by
  rw [amend_at hl hj, List.eraseIdx_eq_take_drop_succ, Option.map_none, Option.toList_none, List.append_nil]

/-- A line amended to what it is. -/
theorem amend_self (hl : (l.map (·.1)).Nodup) {p : Line κ ν} (hp : p ∈ l) : amend l p.1 (some p.2.value) = l := by
  obtain ⟨j, hj⟩ := List.mem_iff_getElem?.mp hp
  rw [amend_eq_modify (f := id) hl hj rfl, List.modify_id]

/-- The entries after one line changed. -/
theorem entries_modify (l : List (Line κ ν)) (j : Nat) (f : Entry κ ν → Entry κ ν) :
    (l.modify j fun p => (p.1, f p.2)).map (·.2) = (l.map (·.2)).modify j f := by
  induction l generalizing j with
  | nil => cases j <;> rfl
  | cons p l ih =>
    cases j with
    | zero => rfl
    | succ j => exact congrArg (p.2 :: ·) (ih j)

theorem entries_amend_some (hl : (l.map (·.1)).Nodup) {j : Nat} {p : Line κ ν} (hj : l[j]? = some p) {v : ν}
    {f : Entry κ ν → Entry κ ν} (hf : f p.2 = { p.2 with value := v }) :
    (amend l p.1 (some v)).map (·.2) = (l.map (·.2)).modify j f := by
  rw [amend_eq_modify (f := fun p => (p.1, f p.2)) hl hj (congrArg (Prod.mk p.1) hf), entries_modify]

theorem entries_amend_none (hl : (l.map (·.1)).Nodup) {j : Nat} {p : Line κ ν} (hj : l[j]? = some p) :
    (amend l p.1 none).map (·.2) = (l.map (·.2)).eraseIdx j := by
  rw [amend_eq_eraseIdx hl hj, List.eraseIdx_map]

/-! ### Amending many -/

theorem amendAll_cons (l : List (Line κ ν)) (y : Nat × Option ν) (ys : List (Nat × Option ν)) :
    amendAll l (y :: ys) = amendAll (amend l y.1 y.2) ys := rfl

theorem amendAll_append (l : List (Line κ ν)) (ys zs : List (Nat × Option ν)) :
    amendAll l (ys ++ zs) = amendAll (amendAll l ys) zs := List.foldl_append ..

theorem labels_amendAll_sublist (l : List (Line κ ν)) (ys : List (Nat × Option ν)) :
    ((amendAll l ys).map label).Sublist (l.map label) := by
  induction ys generalizing l with
  | nil => exact .refl _
  | cons y ys ih => exact (ih _).trans (labels_amend_sublist l y.1 y.2)

theorem numbers_amendAll_sublist (l : List (Line κ ν)) (ys : List (Nat × Option ν)) :
    ((amendAll l ys).map (·.1)).Sublist (l.map (·.1)) := by
  have h := (labels_amendAll_sublist l ys).map Prod.fst
  rwa [List.map_map, List.map_map] at h

/-- Where no number comes twice, all amendments can be made at once. -/
theorem amendAll_eq_filterMap {ys : List (Nat × Option ν)} (hys : (ys.map (·.1)).Nodup) (l : List (Line κ ν)) :
    amendAll l ys = l.filterMap fun p =>
      match ys.find? (·.1 == p.1) with
      | some y => y.2.map p.write
      | none => some p := by
  induction ys generalizing l with
  | nil => exact (List.filterMap_some ..).symm
  | cons y ys ih =>
    obtain ⟨n, x⟩ := y
    obtain ⟨hn, hys⟩ := List.nodup_cons.mp hys
    rw [amendAll_cons, ih hys, amend, List.filterMap_filterMap]
    refine List.filterMap_congr fun p _ => ?_
    by_cases hp : p.1 = n
    · have hnone : ys.find? (·.1 == p.1) = none := by
        refine List.find?_eq_none.mpr fun z hz hzp => hn ?_
        exact List.mem_map.mpr ⟨z, hz, (beq_iff_eq.mp hzp).trans hp⟩
      rw [if_pos hp, List.find?_cons_of_pos (by simp [hp])]
      cases x with
      | none => rfl
      | some v =>
        show (match ys.find? (·.1 == p.1) with
          | some y => y.2.map (p.write v).write
          | none => some (p.write v)) = _
        rw [hnone]
        rfl
    · rw [if_neg hp, List.find?_cons_of_neg (by simpa using Ne.symm hp), Option.bind_some]

theorem mem_amendAll {ys : List (Nat × Option ν)} (hys : (ys.map (·.1)).Nodup) {p : Line κ ν} : p ∈ amendAll l ys ↔
    ∃ q ∈ l, (∃ v, (q.1, some v) ∈ ys ∧ p = q.write v) ∨ (q.1 ∉ ys.map (·.1) ∧ p = q) := by
  rw [amendAll_eq_filterMap hys, List.mem_filterMap]
  refine exists_congr fun q => and_congr_right fun _ => ?_
  cases hfind : ys.find? (·.1 == q.1) with
  | none =>
    have hnone : q.1 ∉ ys.map (·.1) := by
      rintro hq
      obtain ⟨y, hy, hyq⟩ := List.mem_map.mp hq
      exact List.find?_eq_none.mp hfind y hy (beq_iff_eq.mpr hyq)
    constructor
    · intro hp
      exact Or.inr ⟨hnone, (Option.some.inj hp).symm⟩
    · rintro (⟨v, hv, -⟩ | ⟨-, rfl⟩)
      · exact absurd (List.mem_map_of_mem (f := (·.1)) hv) hnone
      · rfl
  | some y =>
    have hy : y ∈ ys := List.mem_of_find?_eq_some hfind
    have hyq : y.1 = q.1 := beq_iff_eq.mp (List.find?_some (p := fun y : Nat × Option ν => y.1 == q.1) hfind)
    constructor
    · intro hp
      obtain ⟨v, hv, rfl⟩ := Option.map_eq_some_iff.mp hp
      refine Or.inl ⟨v, ?_, rfl⟩
      rw [← hyq, ← hv]
      exact hy
    · rintro (⟨v, hv, rfl⟩ | ⟨hq, -⟩)
      · rw [eq_of_number hys hy hv hyq]
        rfl
      · exact absurd (hyq ▸ List.mem_map_of_mem (f := (·.1)) hy) hq

/-- Where none of the lines goes, nothing but values changes. -/
theorem labels_amendAll_some {ys : List (Nat × Option ν)} (h : ∀ y ∈ ys, y.2.isSome) (l : List (Line κ ν)) :
    (amendAll l ys).map label = l.map label := by
  induction ys generalizing l with
  | nil => rfl
  | cons y ys ih =>
    obtain ⟨v, hv⟩ := Option.isSome_iff_exists.mp (h y (List.mem_cons_self ..))
    rw [amendAll_cons, ih fun z hz => h z (List.mem_cons_of_mem _ hz), hv, labels_amend_some]

theorem amendAll_of_disjoint {ys : List (Nat × Option ν)} (h : ∀ y ∈ ys, y.1 ∉ l.map (·.1)) : amendAll l ys = l := by
  induction ys with
  | nil => rfl
  | cons y ys ih =>
    rw [amendAll_cons, amend_of_not_mem (h y (List.mem_cons_self ..))]
    exact ih fun z hz => h z (List.mem_cons_of_mem _ hz)

/-- What is said of other lines leaves the first line alone. -/
theorem amendAll_append_left {l l' : List (Line κ ν)} {ys : List (Nat × Option ν)}
    (h : ∀ y ∈ ys, y.1 ∉ l.map (·.1)) : amendAll (l ++ l') ys = l ++ amendAll l' ys := by
  induction ys generalizing l' with
  | nil => rfl
  | cons y ys ih =>
    rw [amendAll_cons, amend_append, amend_of_not_mem (h y (List.mem_cons_self ..)),
      ih fun z hz => h z (List.mem_cons_of_mem _ hz)]
    rfl

theorem strand_amendAll (c : Nat) (l : List (Line κ ν)) (i : Nat) (ys : List (Nat × Option ν)) :
    strand c (amendAll l ys) i = amendAll (strand c l i) ys := by
  induction ys generalizing l with
  | nil => rfl
  | cons y ys ih => rw [amendAll_cons, ih, strand_amend, amendAll_cons]

theorem strands_amendAll (c : Nat) (l : List (Line κ ν)) (ys : List (Nat × Option ν)) :
    strands c (amendAll l ys) = (strands c l).map (amendAll · ys) := by
  rw [strands, strands, List.map_map]
  exact List.map_congr_left fun i _ => strand_amendAll c l i ys

theorem arranged_amend (c : Nat) (l : List (Line κ ν)) (n : Nat) (x : Option ν) :
    arranged c (amend l n x) = amend (arranged c l) n x := by
  rw [arranged, show strands c (amend l n x) = _ from strands_amendAll c l [(n, x)], arranged, amend,
    List.filterMap_flatten]
  rfl

/-! ### What a closure makes of the lines -/

theorem verdicts_append (keep : List (κ × ν) → Option ν) (seen : List (κ × ν)) (l l' : List (Line κ ν)) :
    verdicts keep seen (l ++ l') = verdicts keep seen l ++ verdicts keep (seen ++ l.map pair) l' := by
  induction l generalizing seen with
  | nil => rw [List.map_nil, List.append_nil]; rfl
  | cons p l ih =>
    rw [List.cons_append, verdicts, verdicts, ih, List.map_cons, List.append_assoc]
    rfl

theorem numbers_verdicts (keep : List (κ × ν) → Option ν) (seen : List (κ × ν)) (l : List (Line κ ν)) :
    (verdicts keep seen l).map (·.1) = l.map (·.1) := by
  induction l generalizing seen with
  | nil => rfl
  | cons p l ih => rw [verdicts, List.map_cons, ih, List.map_cons]

/-- A closure is asked of a line after all before it. -/
theorem mem_verdicts {keep : List (κ × ν) → Option ν} {p : Line κ ν} {i : Nat} (hp : l[i]? = some p) (seen : List (κ × ν)) :
    (p.1, keep (seen ++ (l.map pair).take (i + 1))) ∈ verdicts keep seen l := by
  induction l generalizing i seen with
  | nil => cases hp
  | cons q l ih =>
    rw [verdicts]
    cases i with
    | zero =>
      obtain rfl := Option.some.inj hp
      exact List.mem_cons_self ..
    | succ i =>
      have h := ih hp (seen ++ [q.pair])
      rw [List.append_assoc] at h
      exact List.mem_cons_of_mem _ h

theorem mem_numbers_of_verdict {keep : List (κ × ν) → Option ν} {seen : List (κ × ν)} {y : Nat × Option ν}
    (hy : y ∈ verdicts keep seen l) : y.1 ∈ l.map (·.1) := by
  rw [← numbers_verdicts keep seen]
  exact List.mem_map_of_mem hy

theorem isSome_overwrite {write : List ν → ν} {seen : List (κ × ν)} {y : Nat × Option ν}
    (hy : y ∈ verdicts (overwrite write) seen l) : y.2.isSome := by
  induction l generalizing seen with
  | nil => cases hy
  | cons p l ih =>
    rcases List.mem_cons.mp hy with rfl | hy
    · rfl
    · exact ih hy

/-! ### Order -/

theorem Rising.nodup (h : Rising l) : (l.map (·.1)).Nodup :=
  List.pairwise_map.mpr (h.imp Nat.ne_of_lt)

theorem rising_iff : Rising l ↔ (l.map (·.1)).Pairwise (· < ·) := List.pairwise_map.symm

theorem length_amend_none (hl : Rising l) {p : Line κ ν} (hp : p ∈ l) : (amend l p.1 none).length + 1 = l.length := by
  obtain ⟨j, hj⟩ := List.mem_iff_getElem?.mp hp
  have hlt := (List.getElem?_eq_some_iff.mp hj).1
  rw [amend_eq_eraseIdx hl.nodup hj, List.length_eraseIdx_of_lt hlt]
  omega

theorem Rising.amendAll (h : Rising l) (ys : List (Nat × Option ν)) : Rising (amendAll l ys) :=
  rising_iff.mpr ((rising_iff.mp h).sublist (numbers_amendAll_sublist l ys))

theorem nodup_strand (h : Rising l) (c i : Nat) : ((strand c l i).map (·.1)).Nodup :=
  Rising.nodup (h.filter _)

theorem arranged_perm (hc : 0 < c) (l : List (Line κ ν)) : (arranged c l).Perm l := by
  refine (FirstMatch.flatMap_filter_perm (fun p : Line κ ν => Table.bucketOf p.2.hash c) l c).trans ?_
  rw [List.filter_eq_self.mpr fun p _ => by simpa using Table.bucketOf_lt p.2.hash hc]

theorem nodup_arranged (h : Rising l) (hc : 0 < c) : ((arranged c l).map (·.1)).Nodup :=
  ((arranged_perm hc l).map _).nodup_iff.mpr h.nodup

end Line

namespace Desk.KeyAct

variable {κ ν : Type}

def answer (found : Option (κ × ν)) : KeyAct ν → Result κ ν
  | .put _ | .get | .adjust _ | .remove => .value (found.map (·.2))
  | .getEntry | .removeEntry => .entry found
  | .contains => .flag found.isSome
  | .getOrInsert v _ => .value (some ((found.map (·.2)).getD v))

def outcome (k : κ) (found : Option (κ × ν)) : KeyAct ν → Option (κ × ν)
  | .put v => some ((found.map (·.1)).getD k, v)
  | .get | .getEntry | .contains => found
  | .adjust f => found.map fun e => (e.1, f e.2)
  | .getOrInsert v f => some ((found.getD (k, v)).1, f (found.getD (k, v)).2)
  | .remove | .removeEntry => none

end Desk.KeyAct

/-! ## Rolls -/

structure Mark where
  expected : Nat
  /-- How many entries of the listing lie behind it. -/
  place : Nat
  /-- The number of the entry last yielded, until it is removed. -/
  current : Option Nat

structure Roll {κ : Type} (s : Keying κ) (ν : Type) where
  lines : List (Line κ ν)
  inserted : Nat
  capacity : Nat
  limit : Nat
  changes : Nat

structure Book {κ : Type} (s : Keying κ) (ν : Type) where
  roll : Roll s ν
  marks : List Mark

namespace Roll

open Desk (KeyAct Act Result)

variable {κ ν : Type} {s : Keying κ}

def live (ρ : Roll s ν) : List (Entry κ ν) := ρ.lines.map (·.2)

def listing (ρ : Roll s ν) : List (Line κ ν) := Line.arranged ρ.capacity ρ.lines

def scan (ρ : Roll s ν) (k : κ) : Option (Line κ ν) :=
  ρ.lines.find? fun p => Table.answers s (s.hashOf k) k p.2

/-- The roll with other lines. Another length is a structural change. -/
def become (ρ : Roll s ν) (l : List (Line κ ν)) : Roll s ν :=
  { ρ with lines := l, changes := if l.length = ρ.lines.length then ρ.changes else ρ.changes + 1 }

/-- Clearing is a structural change, of an empty roll, too. -/
def cleared (ρ : Roll s ν) : Roll s ν := { ρ with lines := [], changes := ρ.changes + 1 }

def roomy (ρ : Roll s ν) : Nat :=
  if ρ.capacity < ρ.limit ∧ Table.load ρ.capacity < ρ.lines.length + 1 then 2 * ρ.capacity else ρ.capacity

def insert (ρ : Roll s ν) (k : κ) (v : ν) : Roll s ν :=
  { ρ.become (ρ.lines ++ [(ρ.inserted, ⟨s.hashOf k, k, v⟩)]) with inserted := ρ.inserted + 1, capacity := ρ.roomy }

/-- What is stored for the key `k`, which a scan `found`, becomes this. -/
def store (ρ : Roll s ν) (k : κ) (found : Option (Line κ ν)) (outcome : Option (κ × ν)) : Roll s ν :=
  match found with
  | some p => ρ.become (Line.amend ρ.lines p.1 (outcome.map (·.2)))
  | none =>
    match outcome with
    | some e => ρ.insert k e.2
    | none => ρ

/-- Every line in table order becomes what a closure makes of it. -/
def review (ρ : Roll s ν) (keep : List (κ × ν) → Option ν) : Roll s ν :=
  ρ.become (Line.amendAll ρ.lines (Line.verdicts keep [] ρ.listing))

def start (s : Keying κ) (ν : Type) (capacity limit : Nat) : Roll s ν where
  lines := []
  inserted := 0
  capacity := Table.startCapacity capacity limit
  limit := Table.effectiveLimit limit
  changes := 0

end Roll

namespace Book

open Desk (Act Result)

variable {κ ν : Type} {s : Keying κ}

/-- What mark `m` finds next: nothing at the end or when it is stale. -/
def ahead (ρ : Roll s ν) (m : Mark) : Option (Line κ ν) := if m.expected = ρ.changes then ρ.listing[m.place]? else none

def act (b : Book s ν) : Act κ ν → Result κ ν × Book s ν
  | .key k a =>
    let found := b.roll.scan k
    (a.answer (found.map Line.pair), { b with roll := b.roll.store k found (a.outcome k (found.map Line.pair)) })
  | .retain keep => (.visited (b.roll.listing.map Line.pair), { b with roll := b.roll.review keep })
  | .clear => (.done, { b with roll := b.roll.cleared })
  | .rewrite write => (.done, { b with roll := b.roll.review (Line.overwrite write) })
  | .cursor => (.done, { b with marks := b.marks ++ [⟨b.roll.changes, 0, none⟩] })
  | .clone c => (.done, { b with marks := b.marks ++ b.marks[c]?.toList })
  | .next c =>
    match b.marks[c]? with
    | none => (.done, b)
    | some m =>
      let found := ahead b.roll m
      (.entry (found.map Line.pair),
        { b with marks := b.marks.set c { m with place := m.place + found.toList.length, current := found.map (·.1) } })
  | .strike c =>
    match b.marks[c]? with
    | none => (.done, b)
    | some m =>
      if m.expected = b.roll.changes then
        match m.current.bind fun n => b.roll.lines.find? (·.1 == n) with
        | some p =>
          let ρ := b.roll.become (Line.amend b.roll.lines p.1 none)
          (.struck p.pair, ⟨ρ, b.marks.set c ⟨ρ.changes, m.place - 1, none⟩⟩)
        | none => (.refused .noEntry, b)
      else (.refused (.stale m.expected b.roll.changes), b)

def run (b : Book s ν) : List (Act κ ν) → List (Result κ ν) × Book s ν
  | [] => ([], b)
  | a :: as =>
    let (r, b) := b.act a
    let (rs, b) := b.run as
    (r :: rs, b)

def start (s : Keying κ) (ν : Type) (capacity limit : Nat) : Book s ν := ⟨.start s ν capacity limit, []⟩

/-! ### What is done through a mark -/

theorem next_cases (b : Book s ν) (c : Nat) :
    (b.marks[c]? = none ∧ b.act (.next c) = (.done, b)) ∨
    ∃ m, b.marks[c]? = some m ∧ b.act (.next c) = (.entry ((ahead b.roll m).map Line.pair),
      ⟨b.roll, b.marks.set c
        { m with place := m.place + (ahead b.roll m).toList.length, current := (ahead b.roll m).map (·.1) }⟩) := by
  rw [act]
  cases hm : b.marks[c]? with
  | none => exact Or.inl ⟨rfl, rfl⟩
  | some m => exact Or.inr ⟨m, rfl, rfl⟩

structure Strikes (ρ : Roll s ν) (m : Mark) (p : Line κ ν) : Prop where
  valid : m.expected = ρ.changes
  found : (m.current.bind fun n => ρ.lines.find? (·.1 == n)) = some p

theorem Strikes.mem {ρ : Roll s ν} {m : Mark} {p : Line κ ν} (h : Strikes ρ m p) : p ∈ ρ.lines := by
  obtain ⟨n, -, hfind⟩ := Option.bind_eq_some_iff.mp h.found
  exact List.mem_of_find?_eq_some hfind

/-- A line is removed and the mark keeps up with that, or nothing changes. -/
theorem strike_cases (b : Book s ν) (c : Nat) :
    (∃ m p, (b.marks[c]? = some m ∧ Strikes b.roll m p) ∧
      b.act (.strike c) = (.struck p.pair, ⟨b.roll.become (Line.amend b.roll.lines p.1 none),
        b.marks.set c ⟨(b.roll.become (Line.amend b.roll.lines p.1 none)).changes, m.place - 1, none⟩⟩)) ∨
    ∃ r, (r = .done ∨ ∃ e, r = .refused e) ∧ b.act (.strike c) = (r, b) := by
  rw [act]
  cases hm : b.marks[c]? with
  | none => exact Or.inr ⟨.done, Or.inl rfl, rfl⟩
  | some m =>
    by_cases hvalid : m.expected = b.roll.changes
    · cases hfound : m.current.bind fun n => b.roll.lines.find? (·.1 == n) with
      | none => exact Or.inr ⟨_, Or.inr ⟨.noEntry, rfl⟩, by simp only [if_pos hvalid, hfound]⟩
      | some p => exact Or.inl ⟨m, p, ⟨rfl, hvalid, hfound⟩, by simp only [if_pos hvalid, hfound]⟩
    · exact Or.inr ⟨_, Or.inr ⟨.stale m.expected b.roll.changes, rfl⟩, by simp only [if_neg hvalid]⟩

end Book

namespace Roll

open Desk (Act)

variable {κ ν : Type} {s : Keying κ}

/-! ### What an act does -/

theorem become_self (ρ : Roll s ν) : ρ.become ρ.lines = ρ := by rw [become, if_pos rfl]

/-- What an act on a key does to the lines: it amends one, or it appends one where a scan found none. -/
theorem store_cases (ρ : Roll s ν) (k : κ) (o : Option (κ × ν)) :
    (∃ ys, ρ.store k (ρ.scan k) o = ρ.become (Line.amendAll ρ.lines ys)) ∨
    (∃ v, ρ.scan k = none ∧ ρ.store k (ρ.scan k) o = ρ.insert k v) := by
  cases hscan : ρ.scan k with
  | some p => exact Or.inl ⟨[(p.1, o.map (·.2))], rfl⟩
  | none =>
    cases o with
    | some e => exact Or.inr ⟨e.2, rfl, rfl⟩
    | none => exact Or.inl ⟨[], ρ.become_self.symm⟩

/-- Whatever the act: lines are amended, one is appended, or all are gone. -/
theorem act_cases (b : Book s ν) (a : Act κ ν) :
    (∃ ys, (b.act a).2.roll = b.roll.become (Line.amendAll b.roll.lines ys)) ∨
    (∃ k v, b.roll.scan k = none ∧ (b.act a).2.roll = b.roll.insert k v) ∨
    (a = .clear ∧ (b.act a).2.roll = b.roll.cleared) := by
  have hself : b.roll = b.roll.become (Line.amendAll b.roll.lines []) := b.roll.become_self.symm
  cases a with
  | key k a =>
    rcases b.roll.store_cases k (a.outcome k ((b.roll.scan k).map Line.pair)) with ⟨ys, h⟩ | ⟨v, hk, h⟩
    · exact Or.inl ⟨ys, h⟩
    · exact Or.inr (Or.inl ⟨k, v, hk, h⟩)
  | retain keep => exact Or.inl ⟨_, rfl⟩
  | clear => exact Or.inr (Or.inr ⟨rfl, rfl⟩)
  | rewrite write => exact Or.inl ⟨_, rfl⟩
  | cursor => exact Or.inl ⟨[], hself⟩
  | clone c => exact Or.inl ⟨[], hself⟩
  | next c =>
    rcases Book.next_cases b c with ⟨-, hact⟩ | ⟨m, -, hact⟩
    · rw [hact]
      exact Or.inl ⟨[], hself⟩
    · rw [hact]
      exact Or.inl ⟨[], hself⟩
  | strike c =>
    rcases Book.strike_cases b c with ⟨m, p, -, hact⟩ | ⟨r, -, hact⟩
    · rw [hact]
      exact Or.inl ⟨[(p.1, none)], rfl⟩
    · rw [hact]
      exact Or.inl ⟨[], hself⟩

theorem labels_overwrite (ρ : Roll s ν) (write : List ν → ν) :
    (ρ.review (Line.overwrite write)).lines.map Line.label = ρ.lines.map Line.label :=
  Line.labels_amendAll_some (fun _ hy => Line.isSome_overwrite hy) ρ.lines

/-! ### Rolls in order -/

/-- The lines are numbered in order, hashed by their keys, and the capacity is a power of two. -/
structure Sound (ρ : Roll s ν) : Prop where
  rising : Line.Rising ρ.lines
  numbered : ∀ p ∈ ρ.lines, p.1 < ρ.inserted
  hashed : ∀ p ∈ ρ.lines, p.2.hash = s.hashOf p.2.key
  power : ∃ k, ρ.capacity = 2 ^ k

theorem powerAbove_eq (n : Nat) : ∃ k, Table.powerAbove n = 2 ^ k := by
  unfold Table.powerAbove
  split
  · exact ⟨0, rfl⟩
  · exact ⟨_, Nat.one_shiftLeft _⟩

theorem sound_start (s : Keying κ) (ν : Type) (capacity limit : Nat) : (start s ν capacity limit).Sound where
  rising := List.Pairwise.nil
  numbered _ hp := nomatch hp
  hashed _ hp := nomatch hp
  power := powerAbove_eq _

theorem Sound.amendAll {ρ : Roll s ν} (h : ρ.Sound) (ys : List (Nat × Option ν)) :
    (ρ.become (Line.amendAll ρ.lines ys)).Sound := by
  have hold : ∀ p ∈ Line.amendAll ρ.lines ys, ∃ q ∈ ρ.lines, q.label = p.label := fun p hp =>
    List.mem_map.mp ((Line.labels_amendAll_sublist ρ.lines ys).mem (List.mem_map_of_mem hp))
  refine ⟨h.rising.amendAll ys, fun p hp => ?_, fun p hp => ?_, h.power⟩
  · obtain ⟨q, hq, hqp⟩ := hold p hp
    have hnumber : q.1 = p.1 := congrArg (fun x : Nat × UInt32 × κ => x.1) hqp
    rw [← hnumber]
    exact h.numbered q hq
  · obtain ⟨q, hq, hqp⟩ := hold p hp
    have hhash : q.2.hash = p.2.hash := congrArg (fun x : Nat × UInt32 × κ => x.2.1) hqp
    have hkey : q.2.key = p.2.key := congrArg (fun x : Nat × UInt32 × κ => x.2.2) hqp
    rw [← hhash, ← hkey]
    exact h.hashed q hq

theorem Sound.insert {ρ : Roll s ν} (h : ρ.Sound) (k : κ) (v : ν) : (ρ.insert k v).Sound where
  rising := by
    refine List.pairwise_append.mpr ⟨h.rising, List.pairwise_singleton .., fun p hp q hq => ?_⟩
    rw [List.mem_singleton.mp hq]
    exact h.numbered p hp
  numbered p hp := by
    rcases List.mem_append.mp hp with hp | hp
    · exact Nat.lt_succ_of_lt (h.numbered p hp)
    · rw [List.mem_singleton.mp hp]
      exact Nat.lt_succ_self _
  hashed p hp := by
    rcases List.mem_append.mp hp with hp | hp
    · exact h.hashed p hp
    · rw [List.mem_singleton.mp hp]
  power := by
    obtain ⟨n, hn⟩ := h.power
    show ∃ m, ρ.roomy = 2 ^ m
    rw [roomy]
    split
    · exact ⟨n + 1, by rw [hn, Nat.pow_succ]; omega⟩
    · exact ⟨n, hn⟩

theorem Sound.act {b : Book s ν} (h : b.roll.Sound) (a : Act κ ν) : (b.act a).2.roll.Sound := by
  rcases act_cases b a with ⟨ys, hact⟩ | ⟨k, v, -, hact⟩ | ⟨-, hact⟩
  · rw [hact]
    exact h.amendAll ys
  · rw [hact]
    exact h.insert k v
  · rw [hact]
    refine ⟨List.Pairwise.nil, fun p hp => ?_, fun p hp => ?_, h.power⟩
    · cases hp
    · cases hp

theorem Sound.pos {ρ : Roll s ν} (h : ρ.Sound) : 0 < ρ.capacity := by
  obtain ⟨k, hk⟩ := h.power
  rw [hk]
  exact Nat.two_pow_pos k

/-! ### What stays -/

/-- From one roll to a later one. Where no structural change is counted, nothing but values is new. -/
structure Leads (ρ ρ' : Roll s ν) : Prop where
  changes : ρ.changes ≤ ρ'.changes
  still : ρ'.changes = ρ.changes → ρ'.capacity = ρ.capacity ∧ ρ'.lines.map Line.label = ρ.lines.map Line.label

theorem leads_act (b : Book s ν) (a : Act κ ν) : b.roll.Leads (b.act a).2.roll := by
  rcases act_cases b a with ⟨ys, hact⟩ | ⟨k, v, -, hact⟩ | ⟨-, hact⟩
  · rw [hact]
    by_cases hlength : (Line.amendAll b.roll.lines ys).length = b.roll.lines.length
    · refine ⟨Nat.le_of_eq (if_pos hlength).symm, fun _ => ⟨rfl, ?_⟩⟩
      refine (Line.labels_amendAll_sublist b.roll.lines ys).eq_of_length ?_
      rw [List.length_map, List.length_map, hlength]
    · have hchanges : (b.roll.become (Line.amendAll b.roll.lines ys)).changes = b.roll.changes + 1 := if_neg hlength
      exact ⟨by omega, fun h => by omega⟩
  · have hchanges : (b.roll.insert k v).changes = b.roll.changes + 1 := if_neg (by simp)
    rw [hact]
    exact ⟨by omega, fun h => by omega⟩
  · rw [hact]
    exact ⟨Nat.le_succ _, fun h => absurd h (Nat.succ_ne_self _)⟩

end Roll

end Switchboard
