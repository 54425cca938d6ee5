/-
  Switchboard.Proofs.Table.Changes — the count of changes tells tables apart, values aside.

  An act counts one change if it inserts an entry, removes one, lets a closure drop some, or clears, and
  none otherwise (`Desk.Restructures`, told by what the act is asked and answers). Just then the table has
  another number of entries, or it was cleared (`restructures_iff_moved`).

  So nothing else moves an entry: a table grows only to take one more. Two points of a run with one count
  have the same entries in the same slots, but for their values (`Table.SameLayout`, `changes_exact`).
  One act never lowers the count and leaves the layout with it (`Roll.leads_act`); neither does a run
  (`Roll.leads_run`).
-/

import Switchboard.Proofs.Table.Course
import Switchboard.Table.Recipe

namespace Switchboard

open Desk (KeyAct Act)

variable {κ ν : Type} {s : Keying κ}

/-- Tables with the same entries in the same slots, but for their values. -/
structure Table.SameLayout (t t' : Table s ν) : Prop where
  capacity : t'.capacity = t.capacity
  size : t'.size = t.size
  entries : ∀ p, (t'.entry? p).map (fun e => (e.hash, e.key)) = (t.entry? p).map fun e => (e.hash, e.key)

theorem Table.SameLayout.symm {t t' : Table s ν} (h : t.SameLayout t') : t'.SameLayout t :=
  ⟨h.capacity.symm, h.size.symm, fun p => (h.entries p).symm⟩

/-! ## What closures drop -/

namespace Line

variable {l : List (Line κ ν)} {ys : List (Nat × Option ν)}

/-- A verdict against a line leaves fewer lines. -/
theorem length_amendAll_lt (hys : (ys.map (·.1)).Nodup) {y : Nat × Option ν} (hy : y ∈ ys) (hnone : y.2 = none)
    (hl : y.1 ∈ l.map (·.1)) : (amendAll l ys).length < l.length := by
  have hsub := numbers_amendAll_sublist l ys
  have hle : (amendAll l ys).length ≤ l.length := by simpa using hsub.length_le
  refine Nat.lt_of_le_of_ne hle fun hlength => ?_
  -- With no line fewer the line of the verdict would be there still.
  rw [← hsub.eq_of_length (by simpa using hlength)] at hl
  obtain ⟨p, hp, hpy⟩ := List.mem_map.mp hl
  obtain ⟨q, -, ⟨v, hv, rfl⟩ | ⟨hno, rfl⟩⟩ := (mem_amendAll hys).mp hp
  · have hyv : y = (q.1, some v) := eq_of_number hys hy hv hpy.symm
    rw [hyv] at hnone
    cases hnone
  · exact hno (hpy ▸ List.mem_map_of_mem hy)

theorem length_amendAll_ne_iff (hys : (ys.map (·.1)).Nodup) (hl : ∀ y ∈ ys, y.1 ∈ l.map (·.1)) :
    (amendAll l ys).length ≠ l.length ↔ ∃ y ∈ ys, y.2 = none := by
  constructor
  · intro hlength
    by_contra hsome
    have hlabels : (amendAll l ys).map label = l.map label :=
      labels_amendAll_some (fun y hy => Option.isSome_iff_ne_none.mpr fun hnone => hsome ⟨y, hy, hnone⟩) l
    exact hlength (by simpa using congrArg List.length hlabels)
  · rintro ⟨y, hy, hnone⟩
    exact Nat.ne_of_lt (length_amendAll_lt hys hy hnone (hl y hy))

/-- A closure drops a line if it gives no value when it is asked of some of the lines, the first ones. -/
theorem verdicts_none_iff (keep : List (κ × ν) → Option ν) (seen : List (κ × ν)) (l : List (Line κ ν)) :
    (∃ y ∈ verdicts keep seen l, y.2 = none) ↔ ∃ es, es ≠ [] ∧ es <+: l.map pair ∧ keep (seen ++ es) = none := by
  induction l generalizing seen with
  | nil => simp [verdicts]
  | cons p l ih =>
    rw [verdicts, List.map_cons]
    constructor
    · rintro ⟨y, hy, hnone⟩
      rcases List.mem_cons.mp hy with rfl | hy
      · exact ⟨[p.pair], by simp, by simp, hnone⟩
      · obtain ⟨es, -, hes, hkeep⟩ := (ih _).mp ⟨y, hy, hnone⟩
        refine ⟨p.pair :: es, by simp, by simpa using hes, ?_⟩
        rwa [List.append_assoc] at hkeep
    · rintro ⟨es, hne, hes, hkeep⟩
      obtain ⟨e, es, rfl⟩ := List.exists_cons_of_ne_nil hne
      obtain ⟨rfl, hrest⟩ := List.cons_prefix_cons.mp hes
      by_cases hnil : es = []
      · subst hnil
        exact ⟨_, List.mem_cons_self .., hkeep⟩
      · obtain ⟨y, hy, hnone⟩ := (ih (seen ++ [p.pair])).mpr ⟨es, hnil, hrest, by rwa [List.append_assoc]⟩
        exact ⟨y, List.mem_cons_of_mem _ hy, hnone⟩

end Line

/-! ## Rolls -/

namespace Roll

variable {ρ ρ' ρ'' : Roll s ν}

theorem Leads.trans (h : ρ.Leads ρ') (h' : ρ'.Leads ρ'') : ρ.Leads ρ'' := by
  have hle := h.changes
  have hle' := h'.changes
  refine ⟨Nat.le_trans hle hle', fun hstill => ?_⟩
  obtain ⟨hcapacity, hlabels⟩ := h.still (by omega)
  obtain ⟨hcapacity', hlabels'⟩ := h'.still (by omega)
  exact ⟨hcapacity'.trans hcapacity, hlabels'.trans hlabels⟩

theorem leads_run (b : Book s ν) (as : List (Act κ ν)) : b.roll.Leads (b.run as).2.roll := by
  induction as generalizing b with
  | nil => exact ⟨Nat.le_refl _, fun _ => ⟨rfl, rfl⟩⟩
  | cons a as ih => exact (leads_act b a).trans (ih (b.act a).2)

/-- An act on a key makes a line if it stores what a scan did not find, and strikes one if it leaves nothing of
    what a scan found. -/
theorem length_store_ne_iff (hρ : ρ.Sound) (k : κ) (o : Option (κ × ν)) :
    (ρ.store k (ρ.scan k) o).lines.length ≠ ρ.lines.length ↔ (ρ.scan k).isSome ≠ o.isSome := by
  cases hscan : ρ.scan k with
  | some p =>
    have hp : p ∈ ρ.lines := List.mem_of_find?_eq_some hscan
    show (Line.amend ρ.lines p.1 (o.map (·.2))).length ≠ _ ↔ _
    cases o with
    | some e => simpa using congrArg List.length (Line.labels_amend_some ρ.lines p.1 e.2)
    | none =>
      have hlength := Line.length_amend_none hρ.rising hp
      simp only [Option.map_none]
      constructor
      · simp
      · omega
  | none =>
    cases o with
    | some e =>
      have hlength : (ρ.insert k e.2).lines.length = ρ.lines.length + 1 := List.length_append
      show (ρ.insert k e.2).lines.length ≠ _ ↔ _
      simp [hlength]
    | none => simp [store]

theorem length_review_ne_iff (hρ : ρ.Sound) (keep : List (κ × ν) → Option ν) :
    (ρ.review keep).lines.length ≠ ρ.lines.length ↔
      ∃ es, es ≠ [] ∧ es <+: ρ.listing.map Line.pair ∧ keep es = none := by
  have hperm : (ρ.listing.map (·.1)).Perm (ρ.lines.map (·.1)) := (Line.arranged_perm hρ.pos ρ.lines).map _
  have hverdicts := Line.verdicts_none_iff keep [] ρ.listing
  simp only [List.nil_append] at hverdicts
  rw [← hverdicts]
  refine Line.length_amendAll_ne_iff ?_ fun y hy => hperm.subset (Line.mem_numbers_of_verdict hy)
  rw [Line.numbers_verdicts]
  exact Line.nodup_arranged hρ.rising hρ.pos

end Roll

/-! ## Desks -/

namespace Desk

open Roll

variable {d d' : Desk s ν} {b b' : Book s ν}

def Restructures (d : Desk s ν) : Act κ ν → Prop
  | .key k (.put _) | .key k (.getOrInsert _ _) => d.table.contains k = false
  | .key k .remove | .key k .removeEntry => d.table.contains k = true
  -- The closure gives no value when it was asked of these entries.
  | .retain keep => ∃ seen, seen ≠ [] ∧ seen <+: d.table.toList ∧ keep seen = none
  | .clear => True
  | .strike c => ∃ e, (d.act (.strike c)).1 = .struck e
  | .key _ .get | .key _ .getEntry | .key _ .contains | .key _ (.adjust _) => False
  | .rewrite _ | .cursor | .clone _ | .next _ => False

theorem Shows.contains (h : d.Shows b) (k : κ) : d.table.contains k = (b.roll.scan k).isSome := by
  have hanswer := (h.table.keyed h.sound k .contains).1
  simpa [keyed, KeyAct.answer] using hanswer

/-- An act restructures the table if it leaves another number of entries, or none. -/
theorem restructures_iff_moved (h : d.Shows b) (a : Act κ ν) : d.Restructures a ↔ d.moved a = true := by
  rw [moved_iff h]
  cases a with
  | key k a =>
    have hstore := length_store_ne_iff h.sound k (a.outcome k ((b.roll.scan k).map Line.pair))
    have hcontains := h.contains k
    show _ ↔ _ ∨ (b.roll.store k (b.roll.scan k) _).lines.length ≠ _
    rw [hstore]
    cases hscan : b.roll.scan k <;> rw [hscan] at hcontains <;> cases a <;>
      simp [Restructures, KeyAct.outcome, hcontains]
  | retain keep =>
    have hreview := length_review_ne_iff h.sound keep
    rw [← h.table.toList] at hreview
    show _ ↔ _ ∨ (b.roll.review keep).lines.length ≠ _
    simp [Restructures, hreview]
  | clear => simp [Restructures]
  | rewrite write =>
    have hlength := congrArg List.length (b.roll.labels_overwrite write)
    show _ ↔ _ ∨ (b.roll.review (Line.overwrite write)).lines.length ≠ _
    simpa [Restructures] using hlength
  | cursor => simp [Restructures, Book.act]
  | clone c => simp [Restructures, Book.act]
  | next c =>
    rcases Book.next_cases b c with ⟨-, hact⟩ | ⟨m, -, hact⟩
    · simp [Restructures, hact]
    · simp [Restructures, hact]
  | strike c =>
    have hanswer := (h.act (.strike c)).1
    rcases Book.strike_cases b c with ⟨m, p, ⟨-, hstrikes⟩, hact⟩ | ⟨r, hr, hact⟩
    · have hlength := Line.length_amend_none h.sound.rising hstrikes.mem
      have hne : (Line.amend b.roll.lines p.1 none).length ≠ b.roll.lines.length := by omega
      simpa [Restructures, hanswer, hact, become] using hne
    · rcases hr with rfl | ⟨e, rfl⟩
      · simp [Restructures, hanswer, hact]
      · simp [Restructures, hanswer, hact]

theorem Shows.changes_act (h : d.Shows b) (a : Act κ ν) :
    (d.Restructures a → (d.act a).2.table.changes = d.table.changes + 1) ∧
    (¬ d.Restructures a → (d.act a).2.table.changes = d.table.changes) := by
  obtain ⟨hmoves, hstays⟩ := Roll.changes_act b a
  rw [restructures_iff_moved h, moved_iff h, (h.act a).2.table.changes, h.table.changes]
  refine ⟨hmoves, fun hnot => hstays (fun hclear => hnot (Or.inl hclear)) ?_⟩
  by_contra hlength
  exact hnot (Or.inr hlength)

theorem run_append (d : Desk s ν) (as as' : List (Act κ ν)) : (d.run (as ++ as')).2 = ((d.run as).2.run as').2 := by
  induction as generalizing d with
  | nil => rfl
  | cons a as ih => exact ih (d.act a).2

/-- Lines that agree in all but values are laid out alike. -/
theorem Shows.sameLayout (h : d.Shows b) (h' : d'.Shows b') (hcapacity : b'.roll.capacity = b.roll.capacity)
    (hlabels : b'.roll.lines.map Line.label = b.roll.lines.map Line.label) : d.table.SameLayout d'.table where
  capacity := by rw [h'.table.capacity, h.table.capacity, hcapacity]
  size := by
    have hlength := congrArg List.length hlabels
    rw [h'.table.size, h.table.size]
    simpa using hlength
  entries p := by
    have hstrands := Line.labels_strands hlabels b.roll.capacity
    have hslot : ∀ {d : Desk s ν} {b : Book s ν}, d.Shows b →
        (d.table.entry? p).map (fun e => (e.hash, e.key)) =
          (Slot.occupant ((Line.strands b.roll.capacity b.roll.lines).map (·.map Line.label)) p).map (·.2) := by
      intro d b h
      rw [Table.entry?_eq_occupant, h.table.buckets, Slot.occupant_map, Slot.occupant_map, Option.map_map,
        Option.map_map]
      rfl
    rw [hslot h', hslot h, hcapacity, hstrands]

theorem Shows.sameLayout_run (h : d.Shows b) (as : List (Act κ ν))
    (hchanges : (d.run as).2.table.changes = d.table.changes) : d.table.SameLayout (d.run as).2.table := by
  have hrun := (h.run as).2
  rw [hrun.table.changes, h.table.changes] at hchanges
  obtain ⟨hcapacity, hlabels⟩ := (leads_run b as).still hchanges
  exact h.sameLayout hrun hcapacity hlabels

def point (s : Keying κ) (ν : Type) (capacity limit : Nat) (acts : List (Act κ ν)) (n : Nat) : Desk s ν :=
  ((start s ν capacity limit).run (acts.take n)).2

theorem point_of_le (s : Keying κ) (ν : Type) (capacity limit : Nat) (acts : List (Act κ ν)) {i j : Nat} (hij : i ≤ j) :
    point s ν capacity limit acts j = ((point s ν capacity limit acts i).run ((acts.take j).drop i)).2 := by
  have hprefix : (acts.take j).take i = acts.take i := by rw [List.take_take, Nat.min_eq_left hij]
  have htake : acts.take i ++ (acts.take j).drop i = acts.take j := by
    rw [← hprefix, List.take_append_drop]
  rw [point, point, ← run_append, htake]

/-- At any point of a run the next act counts one change if it restructures the table and none if not; and at any two
    points with one count the layout is the same. -/
theorem changes_exact (s : Keying κ) (ν : Type) (capacity limit : Nat) (acts : List (Act κ ν)) :
    (∀ n a, let d := point s ν capacity limit acts n
      (d.Restructures a → (d.act a).2.table.changes = d.table.changes + 1) ∧
      (¬ d.Restructures a → (d.act a).2.table.changes = d.table.changes) ∧
      (d.Restructures a ↔ a = .clear ∨ (d.act a).2.table.toList.length ≠ d.table.toList.length)) ∧
    ∀ i j, (point s ν capacity limit acts i).table.changes = (point s ν capacity limit acts j).table.changes →
      (point s ν capacity limit acts i).table.SameLayout (point s ν capacity limit acts j).table := by
  have hshows : ∀ n, (point s ν capacity limit acts n).Shows ((Book.start s ν capacity limit).run (acts.take n)).2 :=
    fun n => ((shows_start s ν capacity limit).run _).2
  have hlength : ∀ {d : Desk s ν} {b : Book s ν}, d.Shows b → d.table.toList.length = b.roll.lines.length := by
    intro d b h
    rw [h.table.toList, List.length_map]
    exact (Line.arranged_perm h.sound.pos _).length_eq
  have hlater : ∀ i j, i ≤ j →
      (point s ν capacity limit acts j).table.changes = (point s ν capacity limit acts i).table.changes →
      (point s ν capacity limit acts i).table.SameLayout (point s ν capacity limit acts j).table := by
    intro i j hij hchanges
    rw [point_of_le s ν capacity limit acts hij] at hchanges ⊢
    exact (hshows i).sameLayout_run _ hchanges
  refine ⟨fun n a => ?_, fun i j hij => ?_⟩
  · obtain ⟨hmoves, hstays⟩ := (hshows n).changes_act a
    refine ⟨hmoves, hstays, ?_⟩
    rw [restructures_iff_moved (hshows n), moved_iff (hshows n), hlength ((hshows n).act a).2, hlength (hshows n)]
  · rcases Nat.le_total i j with hle | hle
    · exact hlater i j hle hij.symm
    · exact (hlater j i hle hij).symm

/-- A put that grows the table counts one change, a write to every value none, and a retain that drops one of two entries
    one again. -/
theorem changes_exact_doubled :
    let s : Keying Key := Recipe.keying ⟨.low, .exact, none⟩
    let second : Act Key Nat := .key (.int 2) (.put 20)
    let double : Act Key Nat := .rewrite fun seen => 2 * seen.getLastD 0
    let large : Act Key Nat := .retain fun seen => seen.getLast?.bind fun e => if 20 < e.2 then some e.2 else none
    let acts : List (Act Key Nat) := [.key (.int 1) (.put 10), second, double, large]
    ((point s Nat 1 8 acts 1).Restructures second ∧
      ((point s Nat 1 8 acts 1).act second).2.table.changes = (point s Nat 1 8 acts 1).table.changes + 1 ∧
      (point s Nat 1 8 acts 1).table.capacity = 1 ∧ (point s Nat 1 8 acts 2).table.capacity = 2) ∧
    (¬ (point s Nat 1 8 acts 2).Restructures double ∧
      ((point s Nat 1 8 acts 2).act double).2.table.changes = (point s Nat 1 8 acts 2).table.changes) ∧
    ((point s Nat 1 8 acts 2).table.changes = (point s Nat 1 8 acts 3).table.changes ∧
      (point s Nat 1 8 acts 2).table.SameLayout (point s Nat 1 8 acts 3).table ∧
      (point s Nat 1 8 acts 2).table.toList = [(.int 2, 20), (.int 1, 10)] ∧
      (point s Nat 1 8 acts 3).table.toList = [(.int 2, 40), (.int 1, 20)]) ∧
    (point s Nat 1 8 acts 3).Restructures large ∧
      ((point s Nat 1 8 acts 3).act large).2.table.changes = (point s Nat 1 8 acts 3).table.changes + 1 ∧
      (point s Nat 1 8 acts 4).table.toList = [(.int 2, 40)] := by
  intro s second double large acts
  obtain ⟨hsteps, hlayout⟩ := changes_exact s Nat 1 8 acts
  have hsecond : (point s Nat 1 8 acts 1).table.contains (.int 2) = false := by decide +kernel
  have hdouble : ¬ (point s Nat 1 8 acts 2).Restructures double := fun h => h
  have hlarge : (point s Nat 1 8 acts 3).Restructures large := (hsteps 3 large).2.2.mpr (Or.inr (by decide +kernel))
  have hcount : (point s Nat 1 8 acts 2).table.changes = (point s Nat 1 8 acts 3).table.changes := by decide +kernel
  exact ⟨⟨hsecond, (hsteps 1 second).1 hsecond, by decide +kernel, by decide +kernel⟩,
    ⟨hdouble, (hsteps 2 double).2.1 hdouble⟩, ⟨hcount, hlayout 2 3 hcount, by decide +kernel, by decide +kernel⟩,
    hlarge, (hsteps 3 large).1 hlarge, by decide +kernel⟩

end Desk

end Switchboard
