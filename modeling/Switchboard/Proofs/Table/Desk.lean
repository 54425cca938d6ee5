/-
  Switchboard.Proofs.Table.Desk — a desk does what its roll does, act after act.

  A cursor holds a slot, its mark on the roll holds a place in the listing (`Stands`) and the number
  of an entry. The two belong together (`Points`) as long as the cursor is valid. A stale cursor has
  nothing to keep up with: the count of changes never falls (`Roll.Leads`), so it stays stale.
-/

import Switchboard.Proofs.Table.Refinement

namespace Switchboard

open Desk (KeyAct Act Result)

/-! ## Slots and places -/

namespace Slot

variable {β γ : Type} {cs : List (List β)} {p : Slot} {j : Nat}

/-- The slot lies behind the first `j` members of the chains. -/
structure Stands (cs : List (List β)) (p : Slot) (j : Nat) : Prop where
  bucket : p.bucket ≤ cs.length
  pos : p.pos ≤ (cs[p.bucket]?.getD []).length
  place : j = (cs.take p.bucket).flatten.length + p.pos

def occupant (cs : List (List β)) (p : Slot) : Option β := cs[p.bucket]?.bind (·[p.pos]?)

theorem occupant_map (f : β → γ) (cs : List (List β)) (p : Slot) :
    occupant (cs.map (·.map f)) p = (occupant cs p).map f := by
  rw [occupant, occupant, List.getElem?_map]
  cases cs[p.bucket]? with
  | none => rfl
  | some c => exact List.getElem?_map ..

theorem stands_map {f : β → γ} : Stands (cs.map (·.map f)) p j ↔ Stands cs p j := by
  have hpos : ((cs.map (·.map f))[p.bucket]?.getD []).length = (cs[p.bucket]?.getD []).length := by
    rw [List.getElem?_map]
    cases cs[p.bucket]? <;> simp
  have hplace : ((cs.map (·.map f)).take p.bucket).flatten.length = (cs.take p.bucket).flatten.length := by
    rw [← List.map_take, ← List.map_flatten, List.length_map]
  constructor
  · rintro ⟨hb, hp, hj⟩
    exact ⟨by simpa using hb, hpos ▸ hp, hplace ▸ hj⟩
  · rintro ⟨hb, hp, hj⟩
    exact ⟨by simpa using hb, hpos.symm ▸ hp, hplace.symm ▸ hj⟩

theorem stands_zero (cs : List (List β)) : Stands cs ⟨0, 0⟩ 0 := ⟨Nat.zero_le _, Nat.zero_le _, rfl⟩

theorem flatten_split {b : Nat} {c : List β} (hc : cs[b]? = some c) :
    cs.flatten = (cs.take b).flatten ++ (c ++ (cs.drop (b + 1)).flatten) := by
  obtain ⟨hb, rfl⟩ := List.getElem?_eq_some_iff.mp hc
  rw [← List.flatten_cons, ← List.drop_eq_getElem_cons hb, ← List.flatten_append, List.take_append_drop]

/-- Who occupies the slot is next in the listing. -/
theorem Stands.next (h : Stands cs p j) {e : β} (he : occupant cs p = some e) : cs.flatten[j]? = some e := by
  obtain ⟨c, hc, he⟩ := Option.bind_eq_some_iff.mp he
  have hpos : p.pos < c.length := (List.getElem?_eq_some_iff.mp he).1
  rw [flatten_split hc, h.place, List.getElem?_append_right (Nat.le_add_right ..), Nat.add_sub_cancel_left,
    List.getElem?_append_left hpos, he]

/-- Where a search from a slot ends: at what is next in the listing, in the same place. -/
theorem Stands.seek {κ ν : Type} {cs : List (List (Entry κ ν))} (h : Stands cs p j) :
    ∃ q, Cursor.seek (cs.drop p.bucket) p.bucket p.pos = (q, cs.flatten[j]?) ∧ Stands cs q j ∧
      occupant cs q = cs.flatten[j]? := by
  generalize hrest : cs.drop p.bucket = rest
  induction rest generalizing p with
  | nil =>
    have hb : cs.length ≤ p.bucket := List.drop_eq_nil_iff.mp hrest
    have hnone : cs[p.bucket]? = none := List.getElem?_eq_none hb
    have hpos : p.pos = 0 := by
      have hpos := h.pos
      rw [hnone] at hpos
      exact Nat.le_zero.mp hpos
    have hend : cs.flatten[j]? = none := by
      rw [h.place, List.take_of_length_le hb, hpos]
      exact List.getElem?_eq_none (Nat.le_refl _)
    refine ⟨p, ?_, h, ?_⟩
    · rw [hend]; rfl
    · rw [hend, occupant, hnone]; rfl
  | cons c rest ih =>
    have hb : p.bucket < cs.length := by
      rw [← Nat.not_le]
      intro hle
      rw [List.drop_of_length_le hle] at hrest
      cases hrest
    obtain ⟨rfl, htail⟩ : cs[p.bucket] = c ∧ cs.drop (p.bucket + 1) = rest := by
      rw [List.drop_eq_getElem_cons hb] at hrest
      exact List.cons.inj hrest
    have hc : cs[p.bucket]? = some cs[p.bucket] := List.getElem?_eq_getElem hb
    rw [Cursor.seek]
    cases he : cs[p.bucket][p.pos]? with
    | some e =>
      have hocc : occupant cs p = some e := by rw [occupant, hc]; exact he
      exact ⟨p, by rw [h.next hocc], h, hocc.trans (h.next hocc).symm⟩
    | none =>
      -- The chain is at its end; the next one starts in the same place.
      have hpos : p.pos = cs[p.bucket].length := by
        have hle := h.pos
        rw [hc] at hle
        exact Nat.le_antisymm hle (List.getElem?_eq_none_iff.mp he)
      refine ih (p := ⟨p.bucket + 1, 0⟩) ⟨hb, Nat.zero_le _, ?_⟩ htail
      rw [h.place, hpos, List.take_add_one, hc, List.flatten_append, List.length_append]
      simp

theorem Stands.occupied (h : Stands cs p j) {q : Slot} (hq : p = ⟨q.bucket, q.pos + 1⟩) : ∃ e, occupant cs q = some e := by
  subst hq
  have hpos : q.pos < (cs[q.bucket]?.getD []).length := h.pos
  cases hc : cs[q.bucket]? with
  | none =>
    rw [hc] at hpos
    exact absurd hpos (Nat.not_lt_zero _)
  | some c =>
    rw [hc] at hpos
    exact ⟨_, by rw [occupant, hc]; exact List.getElem?_eq_getElem hpos⟩

theorem Stands.step (h : Stands cs p j) {e : β} (he : occupant cs p = some e) : Stands cs ⟨p.bucket, p.pos + 1⟩ (j + 1) := by
  obtain ⟨c, hc, he⟩ := Option.bind_eq_some_iff.mp he
  refine ⟨h.bucket, ?_, by rw [h.place]; rfl⟩
  rw [hc]
  exact (List.getElem?_eq_some_iff.mp he).1

end Slot

variable {κ ν : Type} {s : Keying κ}

theorem Table.entry?_eq_occupant (t : Table s ν) (p : Slot) : t.entry? p = Slot.occupant t.buckets.toList p := by
  have hbucket : t.buckets.toList[p.bucket]? = t.buckets[p.bucket]? := Array.getElem?_toList
  rw [ Table.entry?, chain_eq, Slot.occupant, hbucket]
  cases t.buckets[p.bucket]? <;> rfl

/-! ## Cursors and marks -/

namespace Roll

open Slot Line

variable {ρ ρ' : Roll s ν} {t : Table s ν} {cur : Cursor} {m : Mark}

/-- The cursor stands where the mark says, and right behind the entry that the mark says. -/
structure Points (ρ : Roll s ν) (cur : Cursor) (m : Mark) : Prop where
  stands : Stands (strands ρ.capacity ρ.lines) cur.start m.place
  current : m.current = (cur.current.bind (occupant (strands ρ.capacity ρ.lines))).map (·.1)
  behind : ∀ p, cur.current = some p → cur.start = ⟨p.bucket, p.pos + 1⟩

structure Marks (ρ : Roll s ν) (cur : Cursor) (m : Mark) : Prop where
  expected : cur.expected = m.expected
  known : m.expected ≤ ρ.changes
  points : m.expected = ρ.changes → ρ.Points cur m

theorem Points.of_labels (h : ρ.Points cur m) (hc : ρ'.capacity = ρ.capacity)
    (hl : ρ'.lines.map label = ρ.lines.map label) : ρ'.Points cur m := by
  have hstrands : (strands ρ'.capacity ρ'.lines).map (·.map label) = (strands ρ.capacity ρ.lines).map (·.map label) := by
    rw [hc]
    exact labels_strands hl _
  have hnumber : ∀ (cs : List (List (Line κ ν))) p,
      (occupant cs p).map (·.1) = (occupant (cs.map (·.map label)) p).map (·.1) := by
    intro cs p
    rw [occupant_map, Option.map_map]
    rfl
  refine ⟨?_, ?_, h.behind⟩
  · rw [← stands_map (f := label), hstrands, stands_map]
    exact h.stands
  · rw [h.current]
    cases cur.current with
    | none => rfl
    | some p =>
      rw [Option.bind_some, Option.bind_some, hnumber, hnumber (strands ρ'.capacity ρ'.lines), hstrands]

/-- What an act does to the roll does no harm to a mark. -/
theorem Marks.leads (h : ρ.Marks cur m) (hl : ρ.Leads ρ') : ρ'.Marks cur m := by
  refine ⟨h.expected, Nat.le_trans h.known hl.changes, fun he => ?_⟩
  have hstill : ρ'.changes = ρ.changes := Nat.le_antisymm (he ▸ h.known) hl.changes
  obtain ⟨hc, hlabels⟩ := hl.still hstill
  exact (h.points (he.trans hstill)).of_labels hc hlabels

theorem marks_cursor (ht : t.Shows ρ) : ρ.Marks t.cursor ⟨ρ.changes, 0, none⟩ where
  expected := ht.changes
  known := Nat.le_refl _
  points _ := ⟨stands_zero _, rfl, fun _ hp => nomatch hp⟩

theorem Marks.isStale (h : ρ.Marks cur m) (ht : t.Shows ρ) : cur.isStale t = true ↔ m.expected ≠ ρ.changes := by
  rw [Cursor.isStale, bne_iff_ne, ht.changes, h.expected, ne_comm]

theorem at_of_occupant {c : Nat} {l : List (Line κ ν)} {p : Slot} {x : Line κ ν} (h : occupant (strands c l) p = some x) :
    At c l p x := by
  obtain ⟨d, hd, hx⟩ := Option.bind_eq_some_iff.mp h
  rw [strands, List.getElem?_map] at hd
  obtain ⟨i, hi, rfl⟩ := Option.map_eq_some_iff.mp hd
  obtain ⟨-, rfl⟩ : _ ∧ p.bucket = i := by simpa using List.getElem?_eq_some_iff.mp hi
  exact hx

/-- A cursor yields what its mark finds next, and steps behind it. -/
theorem Marks.next (h : ρ.Marks cur m) (ht : t.Shows ρ) :
    (cur.next t).1 = (Book.ahead ρ m).map pair ∧
      ρ.Marks (cur.next t).2
        { m with place := m.place + (Book.ahead ρ m).toList.length, current := (Book.ahead ρ m).map (·.1) } := by
  by_cases hm : m.expected = ρ.changes
  case neg =>
    rw [Cursor.next, if_pos ((h.isStale ht).mpr hm), Book.ahead, if_neg hm]
    exact ⟨rfl, h.expected, h.known, fun he => absurd he hm⟩
  have hstale : ¬ cur.isStale t = true := by rw [h.isStale ht]; exact fun hne => hne hm
  have hp := h.points hm
  let cs := strands ρ.capacity ρ.lines
  have hentries : t.buckets.toList.flatten[m.place]? = (ρ.listing[m.place]?).map (·.2) := by
    rw [← List.getElem?_map, ← ht.entries]
    rfl
  obtain ⟨q, hseek, hq, hocc⟩ := ((stands_map (f := Prod.snd)).mpr hp.stands).seek
  rw [← ht.buckets, hentries] at hseek hocc
  have hstands : Stands cs q m.place := stands_map.mp hq
  rw [ht.buckets, occupant_map] at hocc
  rw [Cursor.next, if_neg hstale, hseek, Book.ahead, if_pos hm]
  cases hx : ρ.listing[m.place]? with
  | none => exact ⟨rfl, h.expected, h.known, fun _ => ⟨hstands, rfl, fun _ hp => nomatch hp⟩⟩
  | some x =>
    obtain ⟨y, hy, -⟩ := Option.map_eq_some_iff.mp (hocc.trans (congrArg (Option.map (·.2)) hx))
    obtain rfl : x = y := Option.some.inj (hx.symm.trans (hstands.next hy))
    refine ⟨rfl, h.expected, h.known, fun _ => ⟨hstands.step hy, ?_, ?_⟩⟩
    · exact (congrArg (Option.map (·.1)) hy).symm
    · rintro p hp
      obtain rfl : q = p := Option.some.inj hp
      rfl

/-- After its own removal a cursor stands in the place that the entry left. -/
theorem stands_amend (hρ : ρ.Sound) {p : Slot} {x : Line κ ν} (hx : At ρ.capacity ρ.lines p x) {j : Nat}
    (h : Stands (strands ρ.capacity ρ.lines) ⟨p.bucket, p.pos + 1⟩ j) :
    Stands (strands ρ.capacity (amend ρ.lines x.1 none)) p (j - 1) := by
  have hpos : p.pos < (strand ρ.capacity ρ.lines p.bucket).length := (List.getElem?_eq_some_iff.mp hx).1
  have hb : p.bucket < ρ.capacity := by
    rw [← (mem_strand.mp hx.mem_strand).2]
    exact Table.bucketOf_lt _ hρ.pos
  have htake : (strands ρ.capacity (amend ρ.lines x.1 none)).take p.bucket = (strands ρ.capacity ρ.lines).take p.bucket := by
    rw [strands, strands, ← List.map_take, ← List.map_take]
    refine List.map_congr_left fun i hi => ?_
    rw [strand_amend, amend_of_not_mem]
    refine not_mem_strand hρ.rising hx.mem ?_
    rw [(mem_strand.mp hx.mem_strand).2]
    have hi := List.mem_take_iff_getElem.mp hi
    obtain ⟨k, hk, rfl⟩ := hi
    simp at hk ⊢
    omega
  have hbucket : (strands ρ.capacity (amend ρ.lines x.1 none))[p.bucket]? =
      some ((strand ρ.capacity ρ.lines p.bucket).eraseIdx p.pos) := by
    rw [strands, List.getElem?_map, List.getElem?_range hb, Option.map_some, strand_amend,
      amend_eq_eraseIdx (nodup_strand hρ.rising _ _) hx]
  refine ⟨?_, ?_, ?_⟩
  · simp [strands]
    omega
  · rw [hbucket, Option.getD_some, List.length_eraseIdx_of_lt hpos]
    omega
  · have hj := h.place
    rw [htake]
    simp only at hj
    omega

/-- A valid cursor removes the entry of its mark. -/
theorem Marks.strike_valid (h : ρ.Marks cur m) (ht : t.Shows ρ) (hρ : ρ.Sound) (hm : m.expected = ρ.changes) :
    match m.current.bind fun n => ρ.lines.find? (·.1 == n) with
    | some x =>
      ∃ cur' t', cur.remove t = .ok (x.pair, cur', t') ∧ t'.Shows (ρ.become (amend ρ.lines x.1 none)) ∧
        (ρ.become (amend ρ.lines x.1 none)).Marks cur'
          ⟨(ρ.become (amend ρ.lines x.1 none)).changes, m.place - 1, none⟩
    | none => cur.remove t = .error .noEntry := by
  have hstale : ¬ cur.isStale t = true := by rw [h.isStale ht]; exact fun hne => hne hm
  have hp := h.points hm
  cases hcur : cur.current with
  | none =>
    have hnone : m.current = none := by rw [hp.current, hcur]; rfl
    rw [hnone, Cursor.remove, if_neg hstale, hcur]
    rfl
  | some p =>
    have hstart := hp.behind p hcur
    obtain ⟨x, hx⟩ := hp.stands.occupied hstart
    have hat : At ρ.capacity ρ.lines p x := at_of_occupant hx
    have hcurrent : m.current = some x.1 := by rw [hp.current, hcur, Option.bind_some, hx]; rfl
    have hentry : t.entry? p = some x.2 := ht.lays.occupant_at (ht.capacity ▸ hat)
    have hstands := hp.stands
    rw [hstart] at hstands
    rw [hcurrent, Option.bind_some, find?_number hρ.rising.nodup hat.mem]
    refine ⟨_, _, by rw [Cursor.remove, if_neg hstale, hcur, Option.bind_some, hentry]; rfl, ht.removeAt hρ hat, ?_⟩
    refine ⟨(ht.removeAt hρ hat).changes, Nat.le_refl _, fun _ => ⟨?_, rfl, fun _ hp => nomatch hp⟩⟩
    rw [hstart]
    exact stands_amend hρ hat hstands

theorem Marks.strike_stale (h : ρ.Marks cur m) (ht : t.Shows ρ) (hm : m.expected ≠ ρ.changes) :
    cur.remove t = .error (.stale m.expected ρ.changes) := by
  rw [Cursor.remove, if_pos ((h.isStale ht).mpr hm), h.expected, ht.changes]

end Roll

/-! ## Desks -/

namespace Desk

variable {d : Desk s ν} {b b' : Book s ν}

/-- The desk's table is laid out from the roll, and every cursor has its mark. -/
structure Shows (d : Desk s ν) (b : Book s ν) : Prop where
  table : d.table.Shows b.roll
  sound : b.roll.Sound
  count : d.cursors.length = b.marks.length
  marks : ∀ {c : Nat} {cur m}, d.cursors[c]? = some cur → b.marks[c]? = some m → b.roll.Marks cur m

theorem shows_start (s : Keying κ) (ν : Type) (capacity limit : Nat) :
    (start s ν capacity limit).Shows (.start s ν capacity limit) where
  table := Table.shows_start s ν capacity limit
  sound := Roll.sound_start s ν capacity limit
  count := rfl
  marks hc := by cases hc

/-- The cursor of a number and its mark; or there is neither. -/
theorem Shows.cursor_cases (h : d.Shows b) (c : Nat) :
    (d.cursors[c]? = none ∧ b.marks[c]? = none) ∨
    ∃ cur m, d.cursors[c]? = some cur ∧ b.marks[c]? = some m ∧ b.roll.Marks cur m := by
  by_cases hc : c < d.cursors.length
  · have hcur := List.getElem?_eq_getElem hc
    have hm := List.getElem?_eq_getElem (h.count ▸ hc)
    exact Or.inr ⟨_, _, hcur, hm, h.marks hcur hm⟩
  · exact Or.inl ⟨List.getElem?_eq_none (by omega), List.getElem?_eq_none (by rw [← h.count]; omega)⟩

/-- Where the cursors stay, the table is all there is to see to. -/
theorem Shows.of_table (h : d.Shows b) {t : Table s ν} {ρ : Roll s ν} (ht : t.Shows ρ) (hρ : ρ.Sound)
    (hl : b.roll.Leads ρ) : Shows { d with table := t } { b with roll := ρ } where
  table := ht
  sound := hρ
  count := h.count
  marks hc hm := (h.marks hc hm).leads hl

/-- One more cursor. -/
theorem Shows.add (h : d.Shows b) (cur : Option Cursor) (m : Option Mark)
    (hcm : ∀ {x y}, cur = some x → m = some y → b.roll.Marks x y) (hsome : cur.isSome = m.isSome) :
    Shows { d with cursors := d.cursors ++ cur.toList } { b with marks := b.marks ++ m.toList } := by
  have hlength : cur.toList.length = m.toList.length := by
    rw [Option.length_toList, Option.length_toList, hsome]
  refine ⟨h.table, h.sound, ?_, fun {i x y} hx hy => ?_⟩
  · rw [List.length_append, List.length_append, h.count, hlength]
  · rw [List.getElem?_append] at hx hy
    rw [h.count] at hx
    split at hx
    case isTrue hi =>
      rw [if_pos hi] at hy
      exact h.marks hx hy
    case isFalse hi =>
      rw [if_neg hi] at hy
      exact hcm (Option.mem_toList.mp (List.mem_of_getElem? hx)) (Option.mem_toList.mp (List.mem_of_getElem? hy))

/-- One cursor steps, or removes. -/
theorem Shows.set (h : d.Shows b) {t : Table s ν} {ρ : Roll s ν} (c : Nat) {cur : Cursor} {m : Mark} (ht : t.Shows ρ)
    (hρ : ρ.Sound) (hl : b.roll.Leads ρ) (hm : ρ.Marks cur m) :
    Shows ⟨t, d.cursors.set c cur⟩ ⟨ρ, b.marks.set c m⟩ := by
  refine ⟨ht, hρ, by rw [List.length_set, List.length_set, h.count], fun {i x y} hx hy => ?_⟩
  rw [List.getElem?_set] at hx hy
  by_cases hi : c = i
  · rw [if_pos hi] at hx hy
    split at hx
    · rw [← h.count, if_pos ‹_›] at hy
      rw [← Option.some.inj hx, ← Option.some.inj hy]
      exact hm
    · cases hx
  · rw [if_neg hi] at hx hy
    exact (h.marks hx hy).leads hl

/-- The desk and the book answer alike, and remain alike. -/
theorem Shows.act (h : d.Shows b) (a : Act κ ν) : (d.act a).1 = (b.act a).1 ∧ (d.act a).2.Shows (b.act a).2 := by
  have hsound := h.sound.act a
  have hleads := Roll.leads_act b a
  cases a with
  | key k a =>
    obtain ⟨hr, ht⟩ := h.table.keyed h.sound k a
    exact ⟨hr, h.of_table ht hsound hleads⟩
  | retain keep =>
    obtain ⟨ht, hseen⟩ := h.table.retain h.sound keep
    exact ⟨congrArg Result.visited hseen, h.of_table ht hsound hleads⟩
  | clear => exact ⟨rfl, h.of_table h.table.clear hsound hleads⟩
  | rewrite write => exact ⟨rfl, h.of_table (h.table.rewrite h.sound write) hsound hleads⟩
  | cursor =>
    refine ⟨rfl, h.add (some d.table.cursor) (some ⟨b.roll.changes, 0, none⟩) ?_ rfl⟩
    rintro x y ⟨⟩ ⟨⟩
    exact Roll.marks_cursor h.table
  | clone c =>
    refine ⟨rfl, h.add _ _ h.marks ?_⟩
    rcases h.cursor_cases c with ⟨hcur, hm⟩ | ⟨cur, m, hcur, hm, -⟩
    · rw [hcur, hm]; rfl
    · rw [hcur, hm]; rfl
  | next c =>
    rcases h.cursor_cases c with ⟨hcur, hm⟩ | ⟨cur, m, hcur, hm, hmarks⟩
    · rw [Desk.act, Book.act, hcur, hm]
      exact ⟨rfl, h⟩
    · rw [Book.act, hm] at hsound hleads ⊢
      rw [Desk.act, hcur]
      obtain ⟨hyield, hnext⟩ := hmarks.next h.table
      exact ⟨congrArg Result.entry hyield, h.set c h.table hsound hleads hnext⟩
  | strike c =>
    rcases h.cursor_cases c with ⟨hcur, hm⟩ | ⟨cur, m, hcur, hm, hmarks⟩
    · rw [Desk.act, Book.act, hcur, hm]
      exact ⟨rfl, h⟩
    · rw [Book.act, hm] at hsound hleads ⊢
      rw [Desk.act, hcur]
      by_cases hvalid : m.expected = b.roll.changes
      · have hstrike := hmarks.strike_valid h.table h.sound hvalid
        simp only [if_pos hvalid] at hsound hleads ⊢
        cases hx : m.current.bind fun n => b.roll.lines.find? (·.1 == n) with
        | some x =>
          rw [hx] at hstrike hsound hleads
          obtain ⟨cur', t', hremove, ht', hm'⟩ := hstrike
          simp only [hremove]
          exact ⟨trivial, h.set c ht' hsound hleads hm'⟩
        | none =>
          rw [hx] at hstrike
          simp only [hstrike]
          exact ⟨trivial, h⟩
      · simp only [if_neg hvalid, hmarks.strike_stale h.table hvalid]
        exact ⟨trivial, h⟩

theorem Shows.run (h : d.Shows b) (as : List (Act κ ν)) :
    (d.run as).1 = (b.run as).1 ∧ (d.run as).2.Shows (b.run as).2 := by
  induction as generalizing d b with
  | nil => exact ⟨rfl, h⟩
  | cons a as ih =>
    obtain ⟨hr, hact⟩ := h.act a
    obtain ⟨hrs, hrun⟩ := ih hact
    refine ⟨?_, hrun⟩
    show (d.act a).1 :: ((d.act a).2.run as).1 = (b.act a).1 :: ((b.act a).2.run as).1
    rw [hr, hrs]

end Desk

end Switchboard
