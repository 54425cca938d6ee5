/-
  Switchboard.Proofs.Table.Course — what a cursor does in the course of a run.

  While a cursor is made and stepped, anybody may work on its table. Its course (`Desk.Course`) counts what
  it yielded, and says whether somebody else changed the structure of the table since it was made.
  - As long as nobody did, the cursor goes through the entries that were there when it was made, in
    their order, each with the value that it has by then, and removes what it yielded last.
  - From then on it yields nothing, and refuses to remove anything.

  The count of changes tells the two apart: it moves with every structural change and never comes back
  (`Roll.changes_act`), and a cursor that removes takes the new count over.
-/

import Switchboard.Proofs.Table.Desk
import Switchboard.Table.Recipe

namespace Switchboard

open Desk (KeyAct Act Result)

variable {κ ν : Type} {s : Keying κ}

namespace Desk

/-- The course of a cursor, as far as it shows: in what it answers, and in the size of the table. -/
structure Course where
  /-- How many of the entries that were there at first it yielded. -/
  yielded : Nat
  /-- Which of these are left: the cursor did not remove them. -/
  kept : List Nat
  current : Bool
  disturbed : Bool

def Result.yields : Result κ ν → Bool
  | .entry e => e.isSome
  | _ => false

def Result.strikes : Result κ ν → Bool
  | .struck _ => true
  | _ => false

def moved (d : Desk s ν) : Act κ ν → Bool
  | .clear => true
  | a => (d.act a).2.table.size != d.table.size

namespace Course

def yields (o : Course) : Course :=
  { o with yielded := o.yielded + 1, kept := o.kept ++ [o.yielded], current := true }

def stops (o : Course) : Course := { o with current := false }

def removes (o : Course) : Course := { o with kept := o.kept.dropLast, current := false }

def disturb (o : Course) : Course := { o with disturbed := true }

/-- The course of cursor `c` after an act that answered `r` and may have moved the table. -/
def after (c : Nat) (a : Act κ ν) (r : Result κ ν) (moved : Bool) (o : Course) : Course :=
  match a with
  | .next j => if j = c then (if r.yields then o.yields else o.stops) else o
  | .strike j => if r.strikes then (if j = c then o.removes else o.disturb) else o
  | _ => if moved then o.disturb else o

end Course

def course (c : Nat) (d : Desk s ν) (o : Course) : List (Act κ ν) → Course
  | [] => o
  | a :: as => course c (d.act a).2 (o.after c a (d.act a).1 (d.moved a)) as

/-- What cursor `c`, which was made at desk `d₀`, does at desk `d` by now. -/
structure Course.Obeyed (d₀ d : Desk s ν) (c : Nat) (o : Course) : Prop where
  /-- All entries are there but those that the cursor removed, in their order. -/
  keys : o.disturbed = false →
    d.table.keys = (o.kept.filterMap fun i => d₀.table.keys[i]?) ++ d₀.table.keys.drop o.yielded
  /-- It yields the first that it did not yield yet, with the value of now. -/
  next : o.disturbed = false → (d.act (.next c)).1 = .entry d.table.toList[o.kept.length]? ∧
    (d.table.toList[o.kept.length]?).map (·.1) = d₀.table.keys[o.yielded]?
  /-- It removes the one that it yielded last, and no other. -/
  strike : o.disturbed = false → o.current = true → o.kept.getLast? = some (o.yielded - 1) ∧
    ∃ e, d.table.toList[o.kept.length - 1]? = some e ∧ d₀.table.keys[o.yielded - 1]? = some e.1 ∧
      (d.act (.strike c)).1 = .struck e ∧
      (d.act (.strike c)).2.table.toList = d.table.toList.eraseIdx (o.kept.length - 1)
  idle : o.disturbed = false → o.current = false → d.act (.strike c) = (.refused .noEntry, d)
  staleNext : o.disturbed = true → (d.act (.next c)).1 = .entry none
  staleStrike : o.disturbed = true → d₀.table.changes + (o.yielded - o.kept.length) < d.table.changes ∧
    d.act (.strike c) = (.refused (.stale (d₀.table.changes + (o.yielded - o.kept.length)) d.table.changes), d)
  table : (d.act (.next c)).2.table = d.table

end Desk

namespace Roll

open Desk (Course)

variable {ρ₀ ρ ρ' : Roll s ν} {b : Book s ν} {m : Mark} {o : Course} {c : Nat} {a : Act κ ν}

/-! ## The count of changes -/

/-- It moves when the table is cleared or has another size, and at no other act. -/
theorem changes_act (b : Book s ν) (a : Act κ ν) :
    (a = .clear ∨ (b.act a).2.roll.lines.length ≠ b.roll.lines.length → (b.act a).2.roll.changes = b.roll.changes + 1) ∧
    (a ≠ .clear → (b.act a).2.roll.lines.length = b.roll.lines.length → (b.act a).2.roll.changes = b.roll.changes) := by
  by_cases hclear : a = .clear
  · subst hclear
    exact ⟨fun _ => rfl, fun h => absurd rfl h⟩
  rcases act_cases b a with ⟨ys, hact⟩ | ⟨k, v, -, hact⟩ | ⟨h, -⟩
  · rw [hact]
    exact ⟨fun h => if_neg (h.resolve_left hclear), fun _ h => if_pos h⟩
  · have hlength : (b.roll.insert k v).lines.length = b.roll.lines.length + 1 := List.length_append
    rw [hact]
    exact ⟨fun _ => if_neg (by simp), fun _ h => by omega⟩
  · exact absurd h hclear

/-! ## A cursor whose table is left in peace -/

def labels (ρ : Roll s ν) : List (Nat × UInt32 × κ) := ρ.listing.map Line.label

/-- Of the entries that were there at first, the cursor removed some that it yielded; the others are
    there, and it stands behind those it kept. -/
structure Steady (ρ₀ ρ : Roll s ν) (m : Mark) (o : Course) : Prop where
  valid : m.expected = ρ.changes
  place : m.place = o.kept.length
  labels : ρ.labels = (o.kept.filterMap fun i => ρ₀.labels[i]?) ++ ρ₀.labels.drop o.yielded
  within : ∀ i ∈ o.kept, i < ρ₀.labels.length
  current : o.current = true → ∃ x kept, ρ.listing[kept.length]? = some x ∧ m.current = some x.1 ∧
    o.kept = kept ++ [o.yielded - 1]
  idle : o.current = false → m.current = none

structure Keeps (ρ₀ ρ : Roll s ν) (m : Mark) (o : Course) : Prop where
  counted : o.kept.length ≤ o.yielded
  expected : m.expected = ρ₀.changes + (o.yielded - o.kept.length)
  steady : o.disturbed = false → Steady ρ₀ ρ m o
  stale : o.disturbed = true → m.expected < ρ.changes

theorem Keeps.known (h : Keeps ρ₀ ρ m o) : m.expected ≤ ρ.changes := by
  cases hd : o.disturbed with
  | false => exact Nat.le_of_eq (h.steady hd).valid
  | true => exact Nat.le_of_lt (h.stale hd)

theorem labels_of_still (hc : ρ'.capacity = ρ.capacity) (hl : ρ'.lines.map Line.label = ρ.lines.map Line.label) :
    ρ'.labels = ρ.labels := by
  rw [labels, labels, listing, listing, Line.arranged, Line.arranged, List.map_flatten, List.map_flatten, hc]
  exact congrArg List.flatten (Line.labels_strands hl _)

/-- Where the count of changes stays, so does everything but values. -/
theorem Keeps.still (h : Keeps ρ₀ ρ m o) (hl : ρ.Leads ρ') (hc : ρ'.changes = ρ.changes) : Keeps ρ₀ ρ' m o := by
  obtain ⟨hcapacity, hlabels⟩ := hl.still hc
  have hlabels : ρ'.labels = ρ.labels := labels_of_still hcapacity hlabels
  refine ⟨h.counted, h.expected, fun hd => ?_, fun hd => by rw [hc]; exact h.stale hd⟩
  obtain ⟨hvalid, hplace, hlist, hwithin, hcurrent, hidle⟩ := h.steady hd
  refine ⟨hvalid.trans hc.symm, hplace, hlabels.trans hlist, hwithin, fun hcur => ?_, hidle⟩
  obtain ⟨x, kept, hx, hnumber, hkept⟩ := hcurrent hcur
  have hx' : ρ'.labels[kept.length]? = some x.label := by
    rw [hlabels, labels, List.getElem?_map, hx]
    rfl
  rw [labels, List.getElem?_map] at hx'
  obtain ⟨y, hy, hyx⟩ := Option.map_eq_some_iff.mp hx'
  have hyx : y.1 = x.1 := congrArg (fun l : Nat × UInt32 × κ => l.1) hyx
  exact ⟨y, kept, hy, by rw [hnumber, hyx], hkept⟩

/-- Where it moves, the mark is stale. -/
theorem Keeps.disturb (h : Keeps ρ₀ ρ m o) (hc : ρ'.changes = ρ.changes + 1) :
    Keeps ρ₀ ρ' m o.disturb where
  counted := h.counted
  expected := h.expected
  steady hd := by cases hd
  stale _ := by
    have hknown := h.known
    omega

theorem length_filterMap_getElem? {β : Type} {l : List β} {is : List Nat} (h : ∀ i ∈ is, i < l.length) :
    (is.filterMap fun i => l[i]?).length = is.length := by
  induction is with
  | nil => rfl
  | cons i is ih =>
    rw [List.filterMap_cons, List.getElem?_eq_getElem (h i (List.mem_cons_self ..))]
    exact congrArg (· + 1) (ih fun j hj => h j (List.mem_cons_of_mem _ hj))

/-- Behind what the cursor kept stands what it did not yield yet. -/
theorem Steady.ahead (h : Steady ρ₀ ρ m o) : ρ.labels[m.place]? = ρ₀.labels[o.yielded]? := by
  have hlength := length_filterMap_getElem? h.within
  rw [h.labels, h.place, List.getElem?_append_right (Nat.le_of_eq hlength), hlength, Nat.sub_self, List.getElem?_drop,
    Nat.add_zero]

/-- What it yielded and kept last stands right before. -/
theorem Steady.last (h : Steady ρ₀ ρ m o) {kept : List Nat} {i : Nat} (hkept : o.kept = kept ++ [i]) :
    ρ.labels[kept.length]? = ρ₀.labels[i]? := by
  have hi : i < ρ₀.labels.length := h.within i (hkept ▸ List.mem_append_right _ (List.mem_singleton.mpr rfl))
  have hlength := length_filterMap_getElem? fun j hj => h.within j (hkept ▸ List.mem_append_left _ hj)
  rw [h.labels, hkept, List.filterMap_append, List.filterMap_cons, List.getElem?_eq_getElem hi, List.append_assoc,
    List.getElem?_append_right (Nat.le_of_eq hlength), hlength, Nat.sub_self]
  rfl

/-- The cursor steps. -/
theorem Keeps.next (h : Keeps ρ₀ ρ m o) :
    Keeps ρ₀ ρ { m with place := m.place + (Book.ahead ρ m).toList.length, current := (Book.ahead ρ m).map (·.1) }
      (if (Book.ahead ρ m).isSome then o.yields else o.stops) := by
  -- A cursor that was disturbed finds another change count and stays where it is.
  cases hd : o.disturbed with
  | true =>
    have hstale : m.expected ≠ ρ.changes := Nat.ne_of_lt (h.stale hd)
    rw [Book.ahead, if_neg hstale]
    exact ⟨h.counted, h.expected, fun hd' => absurd (hd.symm.trans hd') (by simp), fun _ => h.stale hd⟩
  | false =>
    have hsteady := h.steady hd
    have hahead := hsteady.ahead
    obtain ⟨hvalid, hplace, hlabels, hwithin, -, -⟩ := hsteady
    rw [labels, List.getElem?_map] at hahead
    rw [Book.ahead, if_pos hvalid]
    cases hx : ρ.listing[m.place]? with
    | none =>
      refine ⟨h.counted, h.expected, fun _ => ⟨hvalid, hplace, hlabels, hwithin, fun hcur => ?_, fun _ => rfl⟩, ?_⟩
      · cases hcur
      · exact fun hd' => absurd (hd.symm.trans hd') (by simp)
    | some x =>
      rw [hx] at hahead
      have hy : ρ₀.labels[o.yielded]? = some x.label := hahead.symm
      obtain ⟨hlt, hget⟩ := List.getElem?_eq_some_iff.mp hy
      refine ⟨?_, ?_, fun _ => ⟨hvalid, ?_, ?_, ?_, fun _ => ⟨x, o.kept, ?_, rfl, rfl⟩, fun hcur => ?_⟩, ?_⟩
      · show (o.kept ++ [o.yielded]).length ≤ o.yielded + 1
        rw [List.length_append]
        exact Nat.succ_le_succ h.counted
      · show m.expected = ρ₀.changes + (o.yielded + 1 - (o.kept ++ [o.yielded]).length)
        rw [List.length_append, h.expected]
        exact congrArg _ (Nat.add_sub_add_right ..).symm
      · show m.place + 1 = (o.kept ++ [o.yielded]).length
        rw [List.length_append, hplace]
        rfl
      · show ρ.labels = ((o.kept ++ [o.yielded]).filterMap fun i => ρ₀.labels[i]?) ++ ρ₀.labels.drop (o.yielded + 1)
        rw [hlabels, List.filterMap_append, List.filterMap_cons, hy, List.drop_eq_getElem_cons hlt, hget,
          List.append_assoc]
        rfl
      · intro i hi
        rcases List.mem_append.mp hi with hi | hi
        · exact hwithin i hi
        · rw [List.mem_singleton.mp hi]
          exact hlt
      · rw [← hplace]
        exact hx
      · cases hcur
      · exact fun hd' => absurd (hd.symm.trans hd') (by simp)

/-- The cursor removes the entry that it yielded last. -/
theorem Keeps.strike (h : Keeps ρ₀ ρ m o) (hρ : ρ.Sound) (hd : o.disturbed = false) (hcur : o.current = true) :
    ∃ x, ρ.listing[o.kept.length - 1]? = some x ∧ (m.current.bind fun n => ρ.lines.find? (·.1 == n)) = some x ∧
      (ρ.become (Line.amend ρ.lines x.1 none)).listing = ρ.listing.eraseIdx (o.kept.length - 1) ∧
      Keeps ρ₀ (ρ.become (Line.amend ρ.lines x.1 none))
        ⟨(ρ.become (Line.amend ρ.lines x.1 none)).changes, m.place - 1, none⟩ o.removes := by
  obtain ⟨hvalid, hplace, hlabels, hwithin, hcurrent, -⟩ := h.steady hd
  obtain ⟨x, kept, hx, hnumber, hkept⟩ := hcurrent hcur
  have hlength : o.kept.length = kept.length + 1 := by rw [hkept, List.length_append]; rfl
  have hmem : x ∈ ρ.lines := (Line.arranged_perm hρ.pos _).mem_iff.mp (List.mem_of_getElem? hx)
  -- Its line is the last of those that the cursor went past.
  have hlisting : (ρ.become (Line.amend ρ.lines x.1 none)).listing = ρ.listing.eraseIdx kept.length := by
    show Line.arranged ρ.capacity (Line.amend ρ.lines x.1 none) = _
    rw [Line.arranged_amend]
    exact Line.amend_eq_eraseIdx (Line.nodup_arranged hρ.rising hρ.pos) hx
  have hchanges : (ρ.become (Line.amend ρ.lines x.1 none)).changes = ρ.changes + 1 := by
    have hlength := Line.length_amend_none hρ.rising hmem
    exact if_neg (by omega)
  have hdrop : o.removes.kept = kept := by
    show o.kept.dropLast = kept
    rw [hkept, List.dropLast_concat]
  have hbefore : ∀ i ∈ kept, i < ρ₀.labels.length := fun i hi => hwithin i (hkept ▸ List.mem_append_left _ hi)
  have hcounted : kept.length + 1 ≤ o.yielded := hlength ▸ h.counted
  refine ⟨x, by rw [hlength]; exact hx, ?_, by rw [hlength]; exact hlisting, ?_⟩
  · rw [hnumber]
    exact Line.find?_number hρ.rising.nodup hmem
  · refine ⟨?_, ?_, fun _ => ⟨rfl, ?_, ?_, ?_, fun hcur => ?_, fun _ => rfl⟩, fun hd' => ?_⟩
    · rw [hdrop]
      exact Nat.le_of_succ_le hcounted
    · rw [hdrop, hchanges, ← hvalid, h.expected, hlength]
      show ρ₀.changes + (o.yielded - (kept.length + 1)) + 1 = ρ₀.changes + (o.yielded - kept.length)
      omega
    · rw [hdrop]
      show m.place - 1 = _
      rw [hplace, hlength]
      rfl
    · have hgone : (ρ.become (Line.amend ρ.lines x.1 none)).labels = ρ.labels.eraseIdx kept.length := by
        rw [labels, hlisting, labels, List.eraseIdx_map]
      have hlast : o.yielded - 1 < ρ₀.labels.length :=
        hwithin _ (hkept ▸ List.mem_append_right _ (List.mem_singleton.mpr rfl))
      have hkeptlength := length_filterMap_getElem? hbefore
      rw [hdrop, hgone, hlabels, hkept, List.filterMap_append, List.filterMap_cons, List.getElem?_eq_getElem hlast,
        List.append_assoc, List.eraseIdx_append_of_length_le (Nat.le_of_eq hkeptlength), hkeptlength, Nat.sub_self]
      rfl
    · rw [hdrop]
      exact hbefore
    · cases hcur
    · exact absurd (hd.symm.trans hd') (by simp)

/-- Whoever acts, the mark keeps to the course. -/
theorem Keeps.act (h : Keeps ρ₀ b.roll m o) (hm : b.marks[c]? = some m) (hb : b.roll.Sound) (a : Act κ ν) {moved : Bool}
    (hmoved : moved = true ↔ a = .clear ∨ (b.act a).2.roll.lines.length ≠ b.roll.lines.length) :
    ∃ m', (b.act a).2.marks[c]? = some m' ∧ Keeps ρ₀ (b.act a).2.roll m' (o.after c a (b.act a).1 moved) := by
  obtain ⟨hmove, hstill⟩ := changes_act b a
  have hlt : c < b.marks.length := (List.getElem?_eq_some_iff.mp hm).1
  -- What is not done through this cursor concerns it by the change count alone.
  have hothers : Keeps ρ₀ (b.act a).2.roll m (if moved then o.disturb else o) := by
    cases moved with
    | true => exact h.disturb (hmove (hmoved.mp rfl))
    | false =>
      have hnot := fun hor => Bool.false_ne_true (hmoved.mpr hor)
      exact h.still (leads_act b a) (hstill (fun hc => hnot (Or.inl hc)) (Classical.not_not.mp fun hl => hnot (Or.inr hl)))
  cases a with
  | key k a => exact ⟨m, hm, hothers⟩
  | retain keep => exact ⟨m, hm, hothers⟩
  | clear => exact ⟨m, hm, hothers⟩
  | rewrite write => exact ⟨m, hm, hothers⟩
  | cursor => exact ⟨m, by rw [← hm]; exact List.getElem?_append_left hlt, hothers⟩
  | clone j => exact ⟨m, by rw [← hm]; exact List.getElem?_append_left hlt, hothers⟩
  | next j =>
    rcases Book.next_cases b j with ⟨hmj, hact⟩ | ⟨mj, hmj, hact⟩
    · have hj : j ≠ c := fun hj => by
        rw [hj, hm] at hmj
        cases hmj
      rw [hact, Course.after, if_neg hj]
      exact ⟨m, hm, h⟩
    · rw [hact]
      by_cases hj : j = c
      · subst hj
        obtain rfl : mj = m := Option.some.inj (hmj.symm.trans hm)
        have hyields : Result.yields (.entry ((Book.ahead b.roll mj).map Line.pair)) = (Book.ahead b.roll mj).isSome :=
          Option.isSome_map
        rw [Course.after, if_pos rfl, hyields]
        exact ⟨_, List.getElem?_set_self hlt, h.next⟩
      · rw [Course.after, if_neg hj]
        exact ⟨m, by rw [← hm]; exact List.getElem?_set_ne hj, h⟩
  | strike j =>
    rcases Book.strike_cases b j with ⟨mj, p, ⟨hmj, hstrikes⟩, hact⟩ | ⟨r, hr, hact⟩
    · rw [hact] at hmove ⊢
      by_cases hj : j = c
      · subst hj
        obtain rfl : mj = m := Option.some.inj (hmj.symm.trans hm)
        -- It could remove, so it was not disturbed and had an entry before it.
        have hd : o.disturbed = false := Bool.eq_false_iff.mpr fun hd => Nat.ne_of_lt (h.stale hd) hstrikes.valid
        have hcur : o.current = true := by
          by_contra hcur
          have hfound := hstrikes.found
          rw [(h.steady hd).idle (by simpa using hcur)] at hfound
          cases hfound
        obtain ⟨x, -, hx, -, hkeeps⟩ := h.strike hb hd hcur
        obtain rfl : x = p := Option.some.inj (hx.symm.trans hstrikes.found)
        refine ⟨_, List.getElem?_set_self hlt, ?_⟩
        show Keeps ρ₀ _ _ (if j = j then _ else _)
        rw [if_pos rfl]
        exact hkeeps
      · have hlength := Line.length_amend_none hb.rising hstrikes.mem
        refine ⟨m, by rw [← hm]; exact List.getElem?_set_ne hj, ?_⟩
        show Keeps ρ₀ _ _ (if j = c then _ else _)
        rw [if_neg hj]
        refine h.disturb (hmove (Or.inr ?_))
        show (Line.amend b.roll.lines p.1 none).length ≠ _
        omega
    · rw [hact]
      rcases hr with rfl | ⟨e, rfl⟩
      · exact ⟨m, hm, h⟩
      · exact ⟨m, hm, h⟩

theorem keeps_start (ρ : Roll s ν) : Keeps ρ ρ ⟨ρ.changes, 0, none⟩ ⟨0, [], false, false⟩ where
  counted := Nat.le_refl _
  expected := rfl
  steady _ := ⟨rfl, rfl, rfl, fun _ hi => (nomatch hi), fun hcur => (nomatch hcur), fun _ => rfl⟩
  stale hd := by cases hd

end Roll

namespace Desk

open Roll (Keeps)

variable {d : Desk s ν} {b : Book s ν} {ρ₀ : Roll s ν} {m : Mark} {o : Course} {c : Nat}

theorem moved_iff (h : d.Shows b) (a : Act κ ν) :
    d.moved a = true ↔ a = .clear ∨ (b.act a).2.roll.lines.length ≠ b.roll.lines.length := by
  rw [← (h.act a).2.table.size, ← h.table.size]
  cases a <;> simp [moved]

theorem Shows.keeps_run (h : d.Shows b) (hm : b.marks[c]? = some m) (hk : Keeps ρ₀ b.roll m o) (as : List (Act κ ν)) :
    ∃ m', (b.run as).2.marks[c]? = some m' ∧ Keeps ρ₀ (b.run as).2.roll m' (course c d o as) := by
  induction as generalizing d b m o with
  | nil => exact ⟨m, hm, hk⟩
  | cons a as ih =>
    obtain ⟨m', hm', hk'⟩ := hk.act hm h.sound a (moved_iff h a)
    obtain ⟨hr, hact⟩ := h.act a
    rw [← hr] at hk'
    exact ih hact hm' hk'

theorem disturbed_after {a : Act κ ν} {r : Result κ ν} {moved : Bool} (hd : o.disturbed = true) :
    (o.after c a r moved).disturbed = true := by
  unfold Course.after
  split
  · split
    · split
      · exact hd
      · exact hd
    · exact hd
  · split
    · split
      · exact hd
      · rfl
    · exact hd
  · split
    · rfl
    · exact hd

/-- Disturbed once, disturbed for the rest of the run. -/
theorem disturbed_course (hd : o.disturbed = true) (as : List (Act κ ν)) : (course c d o as).disturbed = true := by
  induction as generalizing d o with
  | nil => exact hd
  | cons a as ih => exact ih (disturbed_after hd)

theorem course_append (as as' : List (Act κ ν)) :
    course c d o (as ++ as') = course c (d.run as).2 (course c d o as) as' := by
  induction as generalizing d o with
  | nil => rfl
  | cons a as ih => exact ih

theorem Shows.keys (h : d.Shows b) : d.table.keys = b.roll.labels.map (·.2.2) := by
  rw [Table.keys, h.table.entries, Roll.labels, List.map_map, List.map_map]
  rfl

theorem table_next (d : Desk s ν) (c : Nat) : (d.act (.next c)).2.table = d.table := by
  rw [act]
  split <;> rfl

/-- A removal that is refused changes nothing. -/
theorem act_refused {e : CursorError} (h : (d.act (.strike c)).1 = .refused e) : d.act (.strike c) = (.refused e, d) := by
  rw [act] at h ⊢
  split
  · rename_i hnone
    rw [hnone] at h
    cases h
  · rename_i cur hcur
    rw [hcur] at h
    simp only at h ⊢
    split
    · rename_i hok
      rw [hok] at h
      cases h
    · rename_i herror
      rw [herror] at h
      cases h
      rfl

theorem obeyed {d₀ : Desk s ν} {b₀ : Book s ν} (h₀ : d₀.Shows b₀) (h : d.Shows b) (hm : b.marks[c]? = some m)
    (hk : Keeps b₀.roll b.roll m o) : o.Obeyed d₀ d c := by
  have hnext : (d.act (.next c)).1 = .entry ((Book.ahead b.roll m).map Line.pair) := by
    rw [(h.act _).1, Book.act, hm]
  have hstrike : (d.act (.strike c)).1 = (b.act (.strike c)).1 := (h.act _).1
  have hlist : ∀ j : Nat, d.table.toList[j]? = (b.roll.listing[j]?).map Line.pair := by
    intro j
    rw [h.table.toList, List.getElem?_map]
  have hexpected : m.expected = d₀.table.changes + (o.yielded - o.kept.length) := by
    rw [h₀.table.changes]
    exact hk.expected
  refine ⟨fun hd => ?_, fun hd => ⟨?_, ?_⟩, fun hd hcur => ?_, fun hd hcur => ?_, fun hd => ?_, fun hd => ?_, table_next d c⟩
  · rw [h.keys, h₀.keys, (hk.steady hd).labels, List.map_append, List.map_filterMap, List.map_drop]
    simp only [List.getElem?_map]
  · have hsteady := hk.steady hd
    rw [hnext, Book.ahead, if_pos hsteady.valid, hlist, hsteady.place]
  · have hahead := congrArg (Option.map (·.2.2)) (hk.steady hd).ahead
    rw [hlist, h₀.keys, List.getElem?_map, Option.map_map, ← (hk.steady hd).place, ← hahead, Roll.labels,
      List.getElem?_map, Option.map_map]
    rfl
  · have hsteady := hk.steady hd
    obtain ⟨x, hx, hfound, hlisting, -⟩ := hk.strike h.sound hd hcur
    obtain ⟨-, kept, -, -, hkept⟩ := hsteady.current hcur
    have hlength : o.kept.length - 1 = kept.length := by rw [hkept, List.length_append]; rfl
    have hact : (b.act (.strike c)).1 = .struck x.pair ∧
        (b.act (.strike c)).2.roll = b.roll.become (Line.amend b.roll.lines x.1 none) := by
      rw [Book.act, hm]
      simp only [if_pos hsteady.valid, hfound, and_self]
    refine ⟨by rw [hkept, List.getLast?_concat], x.pair, by rw [hlist, hx]; rfl, ?_, hstrike.trans hact.1, ?_⟩
    · have hlast := congrArg (Option.map (·.2.2)) (hsteady.last hkept)
      rw [← hlength, Roll.labels, List.getElem?_map, hx] at hlast
      rw [h₀.keys, List.getElem?_map]
      exact hlast.symm
    · rw [(h.act _).2.table.toList, hact.2, hlisting, h.table.toList, List.eraseIdx_map]
  · have hnone : (b.act (.strike c)).1 = .refused .noEntry := by
      rw [Book.act, hm]
      simp only [if_pos (hk.steady hd).valid, (hk.steady hd).idle hcur, Option.bind_none]
    exact act_refused (hstrike.trans hnone)
  · rw [hnext, Book.ahead, if_neg (Nat.ne_of_lt (hk.stale hd))]
    rfl
  · have hstale : m.expected < b.roll.changes := hk.stale hd
    have hrefused : (b.act (.strike c)).1 = .refused (.stale m.expected b.roll.changes) := by
      rw [Book.act, hm]
      simp only [if_neg (Nat.ne_of_lt hstale)]
    rw [← hexpected, h.table.changes]
    exact ⟨hstale, act_refused (hstrike.trans hrefused)⟩

/-- What a cursor does after any acts since it was made. -/
theorem cursor_contract (s : Keying κ) (ν : Type) (capacity limit : Nat) (before acts : List (Act κ ν)) :
    let d₀ := ((start s ν capacity limit).run before).2
    let c := d₀.cursors.length
    let d₁ := (d₀.act .cursor).2
    let o := course c d₁ ⟨0, [], false, false⟩ acts
    o.Obeyed d₀ (d₁.run acts).2 c ∧
      (o.disturbed = true → ∀ later, (course c d₁ ⟨0, [], false, false⟩ (acts ++ later)).disturbed = true) := by
  intro d₀ c d₁ o
  let d := (d₁.run acts).2
  let b₀ := ((Book.start s ν capacity limit).run before).2
  let b := ((b₀.act .cursor).2.run acts).2
  have h₀ : d₀.Shows b₀ := ((shows_start s ν capacity limit).run before).2
  have h₁ : d₁.Shows (b₀.act .cursor).2 := (h₀.act .cursor).2
  have h : d.Shows b := (h₁.run acts).2
  have hc : (b₀.act .cursor).2.marks[c]? = some ⟨b₀.roll.changes, 0, none⟩ := by
    show (b₀.marks ++ [_])[d₀.cursors.length]? = _
    rw [h₀.count, List.getElem?_concat_length]
  obtain ⟨m, hm, hk⟩ : ∃ m, b.marks[c]? = some m ∧ Keeps b₀.roll b.roll m o :=
    h₁.keeps_run hc (Roll.keeps_start b₀.roll) acts
  refine ⟨obeyed h₀ h hm hk, fun hd later => ?_⟩
  rw [course_append]
  exact disturbed_course hd later

/-- A cursor removes, steps on, sees a new value; then a clone of it removes. -/
theorem cursor_contract_cloned :
    let s : Keying Key := Recipe.keying ⟨.low, .exact, none⟩
    let before : List (Act Key Nat) := [.key (.int 1) (.put 10), .key (.int 5) (.put 50), .key (.int 2) (.put 20)]
    let d₀ := ((start s Nat 16 16).run before).2
    let c := d₀.cursors.length
    let d₁ := (d₀.act .cursor).2
    let alone : List (Act Key Nat) := [.next 0, .strike 0, .next 0, .key (.int 1) (.put 11)]
    let cloned : List (Act Key Nat) := alone ++ [.clone 0, .strike 1]
    let o := course c d₁ ⟨0, [], false, false⟩ alone
    let o' := course c d₁ ⟨0, [], false, false⟩ cloned
    let d := (d₁.run alone).2
    let d' := (d₁.run cloned).2
    (o.disturbed = false ∧ o.current = true ∧ o.Obeyed d₀ d c ∧ (d.act (.strike c)).1 = .struck (.int 1, 11)) ∧
    (o'.disturbed = true ∧ o'.Obeyed d₀ d' c ∧ (d'.act (.strike c)).1 = .refused (.stale 4 5)) := by
  intro s before d₀ c d₁ alone cloned o o' d d'
  exact ⟨⟨by decide +kernel, by decide +kernel, (cursor_contract s Nat 16 16 before alone).1, by decide +kernel⟩,
    by decide +kernel, (cursor_contract s Nat 16 16 before cloned).1, by decide +kernel⟩

end Desk

end Switchboard
