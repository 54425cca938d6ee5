/-
  Switchboard.Proofs.Table.Refinement — a table does what its roll does.
-/

import Switchboard.Proofs.Table.Roll

namespace Switchboard

open Desk (KeyAct Act Result)

variable {κ ν : Type} {s : Keying κ}

namespace Line

variable {l : List (Line κ ν)} {x y : Line κ ν} {c : Nat}

def At (c : Nat) (l : List (Line κ ν)) (p : Slot) (x : Line κ ν) : Prop := (strand c l p.bucket)[p.pos]? = some x

theorem At.mem_strand {p : Slot} (h : At c l p x) : x ∈ strand c l p.bucket := List.mem_of_getElem? h

theorem mem_strand {i : Nat} : x ∈ strand c l i ↔ x ∈ l ∧ Table.bucketOf x.2.hash c = i := by
  rw [strand, List.mem_filter, beq_iff_eq]

theorem At.mem {p : Slot} (h : At c l p x) : x ∈ l := (Line.mem_strand.mp h.mem_strand).1

/-- A line is in no strand but its own. -/
theorem not_mem_strand (hl : Rising l) (hx : x ∈ l) {i : Nat} (hi : Table.bucketOf x.2.hash c ≠ i) :
    x.1 ∉ (strand c l i).map (·.1) := by
  intro hmem
  obtain ⟨y, hy, hn⟩ := List.mem_map.mp hmem
  obtain ⟨hy, hb⟩ := mem_strand.mp hy
  obtain rfl := eq_of_number hl.nodup hx hy hn.symm
  exact hi hb

end Line

namespace Table

open Line

variable {t : Table s ν} {l : List (Line κ ν)} {p : Slot} {x : Line κ ν}

theorem Lays.chain_strand (h : Lays t (l.map (·.2))) {i : Nat} (hi : i < t.capacity) :
    t.chain i = (strand t.capacity l i).map (·.2) := by
  rw [h.chain i hi, List.filter_map]
  rfl

theorem Lays.buckets_strands (h : Lays t (l.map (·.2))) :
    t.buckets.toList = (strands t.capacity l).map (·.map (·.2)) := by
  rw [buckets_eq, strands, List.map_map]
  exact List.map_congr_left fun i hi => h.chain_strand (List.mem_range.mp hi)

/-- Where the buckets hold what the strands hold, the table is laid out from the lines. -/
theorem lays_of_strands {c : Nat} (hpos : 0 < c) (hb : t.buckets.toList = (strands c l).map (·.map (·.2)))
    (hsize : t.size = l.length) : t.capacity = c ∧ Lays t (l.map (·.2)) := by
  have hc : t.capacity = c := by
    have hlength := congrArg List.length hb
    simpa [strands, Table.capacity] using hlength
  refine ⟨hc, by omega, fun i hi => ?_, by rw [hsize, List.length_map]⟩
  rw [hc] at hi ⊢
  rw [chain_eq, ← Array.getElem?_toList, hb, List.filter_map, strands, List.getElem?_map, List.getElem?_map,
    List.getElem?_range hi]
  rfl

theorem Lays.bucket_lt (h : Lays t (l.map (·.2))) (hp : At t.capacity l p x) : p.bucket < t.capacity := by
  rw [← (mem_strand.mp hp.mem_strand).2]
  exact bucketOf_lt _ h.pos

theorem Lays.occupant_at (h : Lays t (l.map (·.2))) (hp : At t.capacity l p x) : t.entry? p = some x.2 := by
  rw [ Table.entry?, h.chain_strand (h.bucket_lt hp), List.getElem?_map, hp]
  rfl

/-- The first line that answers stands where the key is located. -/
theorem Lays.locate_cases (h : Lays t (l.map (·.2))) (k : κ) :
    (t.locate k = none ∧ l.find? (fun p => answers s (s.hashOf k) k p.2) = none) ∨
    ∃ p x, t.locate k = some p ∧ l.find? (fun p => answers s (s.hashOf k) k p.2) = some x ∧ At t.capacity l p x := by
  let b := bucketOf (s.hashOf k) t.capacity
  let q : Line κ ν → Bool := fun p => answers s (s.hashOf k) k p.2
  have hchain : t.chain b = (strand t.capacity l b).map (·.2) := h.chain_strand (bucketOf_lt _ h.pos)
  have hidx : (t.chain b).findIdx? (answers s (s.hashOf k) k) = (strand t.capacity l b).findIdx? q := by
    rw [hchain, List.findIdx?_map]
    rfl
  have hfind : (strand t.capacity l b).find? q = l.find? q :=
    FirstMatch.find?_filter_of_imp (fun y hy => by simp [bucketOf_of_answers hy, b]) l
  rw [List.find?_eq_bind_findIdx?_getElem?] at hfind
  cases hj : (strand t.capacity l b).findIdx? q with
  | none =>
    rw [hj] at hfind hidx
    exact Or.inl ⟨by rw [locate, hidx]; rfl, hfind.symm⟩
  | some j =>
    rw [hj] at hfind hidx
    obtain ⟨hlt, -⟩ := List.findIdx?_eq_some_iff_getElem.mp hj
    have hget : (strand t.capacity l b)[j]? = some (strand t.capacity l b)[j] := List.getElem?_eq_getElem hlt
    refine Or.inr ⟨⟨b, j⟩, _, by rw [locate, hidx]; rfl, ?_, hget⟩
    rw [← hfind]
    exact hget

/-- Writing to a slot amends its line. -/
theorem Lays.modify_at (h : Lays t (l.map (·.2))) (hl : Rising l) (hp : At t.capacity l p x) (f : ν → ν) :
    Lays (t.modify p f) ((amend l x.1 (some (f x.2.value))).map (·.2)) := by
  refine ⟨by simpa using h.pos, fun i hi => ?_, ?_⟩
  · rw [capacity_modify] at hi ⊢
    have hfilter : ((amend l x.1 (some (f x.2.value))).map (·.2)).filter (fun e => bucketOf e.hash t.capacity == i) =
        (amend (strand t.capacity l i) x.1 (some (f x.2.value))).map (·.2) := by
      rw [List.filter_map, ← strand_amend]
      rfl
    rw [hfilter, chain_modify, h.chain_strand hi]
    by_cases hb : p.bucket = i
    · subst hb
      rw [if_pos rfl, entries_amend_some (f := fun e => { e with value := f e.value }) (nodup_strand hl _ _) hp rfl]
    · rw [if_neg hb, amend_of_not_mem]
      refine not_mem_strand hl hp.mem fun hx => hb ?_
      rw [← hx, (mem_strand.mp hp.mem_strand).2]
  · have hlength := congrArg List.length (labels_amend_some l x.1 (f x.2.value))
    rw [List.length_map, List.length_map] at hlength
    rw [List.length_map, hlength, ← l.length_map (·.2), ← h.size]
    rfl

/-- Taking the entry out of a slot strikes its line. -/
theorem Lays.removeAt_at (h : Lays t (l.map (·.2))) (hl : Rising l) (hp : At t.capacity l p x) :
    Lays (t.removeAt p) ((amend l x.1 none).map (·.2)) := by
  refine ⟨by simpa using h.pos, fun i hi => ?_, ?_⟩
  · rw [capacity_removeAt] at hi ⊢
    have hfilter : ((amend l x.1 none).map (·.2)).filter (fun e => bucketOf e.hash t.capacity == i) =
        (amend (strand t.capacity l i) x.1 none).map (·.2) := by
      rw [List.filter_map, ← strand_amend]
      rfl
    rw [hfilter, chain_removeAt, h.chain_strand hi]
    by_cases hb : p.bucket = i
    · subst hb
      rw [if_pos rfl, entries_amend_none (nodup_strand hl _ _) hp]
    · rw [if_neg hb, amend_of_not_mem]
      refine not_mem_strand hl hp.mem fun hx => hb ?_
      rw [← hx, (mem_strand.mp hp.mem_strand).2]
  · have hlength := length_amend_none hl hp.mem
    have hsize := h.size
    rw [List.length_map] at hsize
    rw [List.length_map]
    show t.size - 1 = _
    omega

/-! ## A table and its roll -/

/-- The table is laid out from the roll's lines and counts what the roll counts. -/
structure Shows (t : Table s ν) (ρ : Roll s ν) : Prop where
  lays : Lays t ρ.live
  capacity : t.capacity = ρ.capacity
  limit : t.limit = ρ.limit
  changes : t.changes = ρ.changes

variable {ρ : Roll s ν} {k : κ} {v : ν}

theorem Shows.size (h : t.Shows ρ) : t.size = ρ.lines.length := by
  rw [h.lays.size, Roll.live, List.length_map]

/-- The table's own order. -/
theorem Shows.entries (h : t.Shows ρ) : t.entries = ρ.listing.map (·.2) := by
  rw [Table.entries, h.lays.buckets_strands, h.capacity, Roll.listing, arranged, List.map_flatten]

theorem Shows.toList (h : t.Shows ρ) : t.toList = ρ.listing.map pair := by
  rw [Table.toList, h.entries, List.map_map]
  rfl

theorem shows_start (s : Keying κ) (ν : Type) (capacity limit : Nat) :
    (withLimit s ν capacity limit).Shows (.start s ν capacity limit) where
  lays := lays_withLimit ..
  capacity := by simp [withLimit, Table.capacity, Roll.start]
  limit := rfl
  changes := rfl

/-! ### Keys -/

theorem Shows.modify (h : t.Shows ρ) (hρ : ρ.Sound) (hp : At ρ.capacity ρ.lines p x) (f : ν → ν) :
    (t.modify p f).Shows (ρ.become (amend ρ.lines x.1 (some (f x.2.value)))) := by
  have hlength := congrArg List.length (labels_amend_some ρ.lines x.1 (f x.2.value))
  rw [List.length_map, List.length_map] at hlength
  refine ⟨h.lays.modify_at hρ.rising (h.capacity ▸ hp) f, ?_, h.limit, ?_⟩
  · rw [capacity_modify]
    exact h.capacity
  · rw [Roll.become, if_pos hlength]
    exact h.changes

theorem Shows.removeAt (h : t.Shows ρ) (hρ : ρ.Sound) (hp : At ρ.capacity ρ.lines p x) :
    (t.removeAt p).Shows (ρ.become (amend ρ.lines x.1 none)) := by
  have hlength := length_amend_none hρ.rising hp.mem
  refine ⟨h.lays.removeAt_at hρ.rising (h.capacity ▸ hp), ?_, h.limit, ?_⟩
  · rw [capacity_removeAt]
    exact h.capacity
  · rw [Roll.become, if_neg (by omega)]
    exact congrArg (· + 1) h.changes

theorem capacity_reserve (h : t.Shows ρ) : t.reserve.capacity = ρ.roomy := by
  rw [Table.reserve, isFull, Roll.roomy, h.capacity, h.limit, h.size]
  by_cases hfull : ρ.capacity < ρ.limit ∧ load ρ.capacity < ρ.lines.length + 1
  · rw [if_pos (by simpa using hfull), if_pos hfull, capacity_grow, h.capacity]
  · rw [if_neg (by simpa using hfull), if_neg hfull, h.capacity]

theorem Shows.insertNew (h : t.Shows ρ) (k : κ) (v : ν) : (t.insertNew k v).Shows (ρ.insert k v) where
  lays := by
    have hlive : (ρ.insert k v).live = ρ.live ++ [⟨s.hashOf k, k, v⟩] := List.map_append ..
    rw [hlive]
    exact h.lays.insertNew k v
  capacity := by
    rw [Table.insertNew, capacity_append]
    exact capacity_reserve h
  limit := by
    rw [Table.insertNew, Table.reserve]
    split <;> exact h.limit
  changes := by
    rw [Roll.insert, Roll.become, if_neg (by simp), Table.insertNew, Table.reserve]
    split <;> exact congrArg (· + 1) h.changes

/-- A new entry is the last of its chain. -/
theorem occupant_lastSlot (t : Table s ν) (hpos : 0 < t.capacity) (k : κ) (v : ν) :
    Table.entry? (t.insertNew k v) ((t.insertNew k v).lastSlot k) = some ⟨s.hashOf k, k, v⟩ := by
  rw [Table.insertNew]
  have hlt : bucketOf (s.hashOf k) t.reserve.capacity < t.reserve.capacity := by
    refine bucketOf_lt _ ?_
    rw [Table.reserve]
    split
    · rw [capacity_grow]; omega
    · exact hpos
  generalize t.reserve = u at hlt
  rw [ Table.entry?, lastSlot, capacity_append, chain_append u _ hlt, if_pos rfl]
  simp

/-- Every act on a key answers and does what the roll does. -/
theorem Shows.keyed (h : t.Shows ρ) (hρ : ρ.Sound) (k : κ) (a : KeyAct ν) :
    (Desk.keyed t k a).1 = a.answer ((ρ.scan k).map pair) ∧
      (Desk.keyed t k a).2.Shows (ρ.store k (ρ.scan k) (a.outcome k ((ρ.scan k).map pair))) := by
  rcases h.lays.locate_cases k with ⟨hloc, hscan⟩ | ⟨p, x, hloc, hscan, hp⟩
  · rw [show ρ.scan k = none from hscan]
    have hfind : t.find? k = none := by rw [Table.find?, hloc]; rfl
    cases a with
    | put v =>
      rw [Desk.keyed, Table.put, hloc]
      exact ⟨rfl, h.insertNew k v⟩
    | get => exact ⟨by rw [Desk.keyed, Table.get?, hfind]; rfl, h⟩
    | getEntry => exact ⟨by rw [Desk.keyed, Table.getEntry?, hfind]; rfl, h⟩
    | contains => exact ⟨by rw [Desk.keyed, Table.contains, hloc]; rfl, h⟩
    | adjust f =>
      rw [Desk.keyed, Table.get?, hfind, Table.adjust, hloc]
      exact ⟨rfl, h⟩
    | getOrInsert v f =>
      have hgot : t.getOrInsert k v = ((t.insertNew k v).lastSlot k, t.insertNew k v) := by
        rw [Table.getOrInsert, getOrInsertM, hloc]
        rfl
      rw [Desk.keyed, hgot]
      refine ⟨congrArg Result.value ?_, ?_⟩
      · rw [occupant_lastSlot t h.lays.pos]
        rfl
      · show ((t.insertNew k v).modify ((t.insertNew k v).lastSlot k) f).Shows _
        rw [modify_lastSlot_insertNew]
        exact h.insertNew k (f v)
    | remove =>
      rw [Desk.keyed, Table.remove, Table.removeEntry, hloc]
      exact ⟨rfl, h⟩
    | removeEntry =>
      rw [Desk.keyed, Table.removeEntry, hloc]
      exact ⟨rfl, h⟩
  · rw [show ρ.scan k = some x from hscan]
    have hentry : t.entry? p = some x.2 := h.lays.occupant_at hp
    have hfind : t.find? k = some x.2 := by rw [Table.find?, hloc]; exact hentry
    rw [h.capacity] at hp
    -- To read an entry is, on the roll, to put back what it has.
    have hread : t.Shows (ρ.become (amend ρ.lines x.1 (some x.2.value))) := by
      rw [amend_self hρ.rising.nodup hp.mem, Roll.become_self]
      exact h
    cases a with
    | put v =>
      rw [Desk.keyed, Table.put, hloc]
      exact ⟨congrArg (fun e => Result.value (e.map (·.value))) hentry, h.modify hρ hp fun _ => v⟩
    | get => exact ⟨by rw [Desk.keyed, Table.get?, hfind]; rfl, hread⟩
    | getEntry => exact ⟨by rw [Desk.keyed, Table.getEntry?, hfind]; rfl, hread⟩
    | contains => exact ⟨by rw [Desk.keyed, Table.contains, hloc]; rfl, hread⟩
    | adjust f =>
      rw [Desk.keyed, Table.get?, hfind, Table.adjust, hloc]
      exact ⟨rfl, h.modify hρ hp f⟩
    | getOrInsert v f =>
      have hgot : t.getOrInsert k v = (p, t) := by
        rw [Table.getOrInsert, getOrInsertM, hloc]
        rfl
      rw [Desk.keyed, hgot]
      exact ⟨congrArg (fun e => Result.value (e.map (·.value))) hentry, h.modify hρ hp f⟩
    | remove =>
      rw [Desk.keyed, Table.remove, Table.removeEntry, hloc]
      exact ⟨congrArg (fun e => Result.value ((e.map fun e => (e.key, e.value)).map (·.2))) hentry, h.removeAt hρ hp⟩
    | removeEntry =>
      rw [Desk.keyed, Table.removeEntry, hloc]
      exact ⟨congrArg (fun e => Result.entry (e.map fun e => (e.key, e.value))) hentry, h.removeAt hρ hp⟩

/-! ### All entries in turn -/

/-- Through a chain a closure gives each line what `verdicts` says. -/
theorem run_retainChainM (keep : List (κ × ν) → Option ν) (seen : List (κ × ν)) (hl : (l.map (·.1)).Nodup) :
    retainChainM (fun k v => Desk.asked keep (k, v)) (l.map (·.2)) seen =
      ((amendAll l (verdicts keep seen l)).map (·.2), seen ++ l.map pair) := by
  induction l generalizing seen with
  | nil => exact congrArg (Prod.mk []) (List.append_nil seen).symm
  | cons q l ih =>
    obtain ⟨hq, hl⟩ := List.nodup_cons.mp hl
    let rest := retainChainM (fun k v => Desk.asked keep (k, v)) (l.map (·.2)) (seen ++ [q.pair])
    have hrest : rest = _ := ih (seen ++ [q.pair]) hl
    have hstep : retainChainM (fun k v => Desk.asked keep (k, v)) ((q :: l).map (·.2)) seen =
        (((keep (seen ++ [q.pair])).map fun v => { q.2 with value := v }).toList ++ rest.1, rest.2) := by
      rw [List.map_cons, retainChainM]
      have hpair : (q.2.key, q.2.value) = q.pair := rfl
      simp only [Desk.asked, bind, StateT.bind, hpair]
      cases keep (seen ++ [q.pair]) <;> rfl
    rw [hstep, hrest, verdicts, amendAll_cons, amend_cons, if_pos rfl, amend_of_not_mem hq, List.append_assoc]
    cases keep (seen ++ [q.pair]) with
    | none => rfl
    | some v =>
      rw [Option.map_some, Option.toList_some, Option.map_some, Option.toList_some]
      rw [amendAll_append_left]
      · rfl
      · intro y hy hmem
        have hlater := mem_numbers_of_verdict hy
        rw [show y.1 = q.1 from List.mem_singleton.mp hmem] at hlater
        exact hq hlater

/-- And through the chains one after the other, where no number comes twice. -/
theorem run_mapM_retainChainM (keep : List (κ × ν) → Option ν) (seen : List (κ × ν)) {cs : List (List (Line κ ν))}
    (hcs : (cs.flatten.map (·.1)).Nodup) :
    (cs.map (·.map (·.2))).mapM (retainChainM fun k v => Desk.asked keep (k, v)) seen =
      ((cs.map (amendAll · (verdicts keep seen cs.flatten))).map (·.map (·.2)), seen ++ cs.flatten.map pair) := by
  induction cs generalizing seen with
  | nil => exact congrArg (Prod.mk []) (List.append_nil seen).symm
  | cons c cs ih =>
    rw [List.flatten_cons, List.map_append] at hcs
    obtain ⟨hc, hcs', hne⟩ := List.nodup_append.mp hcs
    let first := verdicts keep seen c
    let later := verdicts keep (seen ++ c.map pair) cs.flatten
    -- What is said of the first chain does not touch the others, nor the other way round.
    have hfirst : amendAll c (first ++ later) = amendAll c first := by
      rw [amendAll_append]
      refine amendAll_of_disjoint fun y hy hmem => ?_
      exact hne y.1 ((numbers_amendAll_sublist c first).mem hmem) y.1 (mem_numbers_of_verdict hy) rfl
    have hlater : cs.map (amendAll · (first ++ later)) = cs.map (amendAll · later) := by
      refine List.map_congr_left fun d hd => ?_
      rw [amendAll_append]
      congr 1
      refine amendAll_of_disjoint fun y hy hmem => ?_
      obtain ⟨z, hz, hzy⟩ := List.mem_map.mp hmem
      exact hne y.1 (mem_numbers_of_verdict hy) y.1
        (List.mem_map.mpr ⟨z, List.mem_flatten.mpr ⟨d, hd, hz⟩, hzy⟩) rfl
    let f : List (Entry κ ν) → StateM (List (κ × ν)) (List (Entry κ ν)) :=
      retainChainM fun k v => Desk.asked keep (k, v)
    have hstep : ((c :: cs).map (·.map (·.2))).mapM f seen =
        let (d, seen) := f (c.map (·.2)) seen
        let (ds, seen) := (cs.map (·.map (·.2))).mapM f seen
        (d :: ds, seen) := by
      rw [List.map_cons, List.mapM_cons]
      rfl
    rw [hstep, show f (c.map (·.2)) seen = _ from run_retainChainM keep seen hc]
    simp only
    rw [show (cs.map (·.map (·.2))).mapM f (seen ++ c.map pair) = _ from ih (seen ++ c.map pair) hcs',
      List.flatten_cons, verdicts_append, List.map_cons, List.map_cons, hfirst, hlater, List.map_append,
      List.append_assoc]

/-- Writing to all values is keeping all entries. -/
theorem run_mapM_writeM (write : List ν → ν) (c : List (Entry κ ν)) (seen : List (κ × ν)) :
    c.mapM (Desk.writeM (Desk.asked write)) (seen.map (·.2)) =
      (retainChainM (fun k v => Desk.asked (overwrite write) (k, v)) c seen).map id (·.map (·.2)) := by
  induction c generalizing seen with
  | nil => rfl
  | cons e c ih =>
    have hseen : (seen ++ [(e.key, e.value)]).map (·.2) = seen.map (·.2) ++ [e.value] := List.map_append
    rw [List.mapM_cons]
    show (c.mapM (Desk.writeM (Desk.asked write)) (seen.map (·.2) ++ [e.value])).map
          ({ e with value := write (seen.map (·.2) ++ [e.value]) } :: ·) id = _
    rw [← hseen, show c.mapM (Desk.writeM (Desk.asked write)) _ = _ from ih (seen ++ [(e.key, e.value)])]
    rfl

theorem run_mapM_mapM_writeM (write : List ν → ν) (cs : List (List (Entry κ ν))) (seen : List (κ × ν)) :
    cs.mapM (·.mapM (Desk.writeM (Desk.asked write))) (seen.map (·.2)) =
      (cs.mapM (retainChainM fun k v => Desk.asked (overwrite write) (k, v)) seen).map id (·.map (·.2)) := by
  induction cs generalizing seen with
  | nil => rfl
  | cons c cs ih =>
    let r := retainChainM (fun k v => Desk.asked (overwrite write) (k, v)) c seen
    rw [List.mapM_cons, List.mapM_cons]
    show (let d := c.mapM (Desk.writeM (Desk.asked write)) (seen.map (·.2))
      (cs.mapM (·.mapM (Desk.writeM (Desk.asked write))) d.2).map (d.1 :: ·) id) = _
    rw [run_mapM_writeM]
    show (cs.mapM (·.mapM (Desk.writeM (Desk.asked write))) (r.2.map (·.2))).map (r.1 :: ·) id = _
    rw [show cs.mapM (·.mapM (Desk.writeM (Desk.asked write))) (r.2.map (·.2)) = _ from ih r.2]
    rfl

theorem Shows.buckets (h : t.Shows ρ) : t.buckets.toList = (strands ρ.capacity ρ.lines).map (·.map (·.2)) := by
  rw [h.lays.buckets_strands, h.capacity]

/-- Other lines in the buckets. -/
theorem Shows.become (h : t.Shows ρ) {t' : Table s ν} (hb : t'.buckets.toList = (strands ρ.capacity l).map (·.map (·.2)))
    (hsize : t'.size = l.length) (hlimit : t'.limit = t.limit)
    (hchanges : t'.changes = if l.length = ρ.lines.length then t.changes else t.changes + 1) :
    t'.Shows (ρ.become l) := by
  obtain ⟨hc, hlays⟩ := lays_of_strands (h.capacity ▸ h.lays.pos) hb hsize
  refine ⟨hlays, hc, hlimit.trans h.limit, ?_⟩
  rw [hchanges, h.changes]
  rfl

/-- What a closure makes of the strands is the strands of what it makes of the lines. -/
theorem run_strands (keep : List (κ × ν) → Option ν) (h : t.Shows ρ) (hρ : ρ.Sound) :
    t.buckets.toList.mapM (retainChainM fun k v => Desk.asked keep (k, v)) [] =
      ((strands ρ.capacity (ρ.review keep).lines).map (·.map (·.2)), ρ.listing.map pair) := by
  have hnodup : ((strands ρ.capacity ρ.lines).flatten.map (·.1)).Nodup :=
    nodup_arranged hρ.rising (h.capacity ▸ h.lays.pos)
  rw [h.buckets, run_mapM_retainChainM keep [] hnodup, ← strands_amendAll]
  rfl

theorem Shows.retain (h : t.Shows ρ) (hρ : ρ.Sound) (keep : List (κ × ν) → Option ν) :
    ((t.retainM fun k v => Desk.asked keep (k, v)) []).1.Shows (ρ.review keep) ∧
      ((t.retainM fun k v => Desk.asked keep (k, v)) []).2 = ρ.listing.map pair := by
  let chains := (strands ρ.capacity (ρ.review keep).lines).map (·.map (·.2))
  have hrun : (t.retainM fun k v => Desk.asked keep (k, v)) [] =
      (⟨chains.toArray, chains.flatten.length, t.limit,
        if chains.flatten.length = t.size then t.changes else t.changes + 1⟩, ρ.listing.map pair) := by
    show (let r := t.buckets.toList.mapM (retainChainM fun k v => Desk.asked keep (k, v)) []
      ((⟨r.1.toArray, r.1.flatten.length, t.limit,
        if r.1.flatten.length = t.size then t.changes else t.changes + 1⟩ : Table s ν), r.2)) = _
    rw [run_strands keep h hρ]
  have hlength : chains.flatten.length = (ρ.review keep).lines.length := by
    rw [← List.map_flatten, List.length_map]
    exact (arranged_perm (h.capacity ▸ h.lays.pos) _).length_eq
  rw [hrun]
  exact ⟨h.become rfl hlength rfl (by rw [hlength, h.size]; rfl), rfl⟩

theorem Shows.rewrite (h : t.Shows ρ) (hρ : ρ.Sound) (write : List ν → ν) :
    (Desk.mapValuesM t (Desk.asked write) []).1.Shows (ρ.review (overwrite write)) := by
  let chains := (strands ρ.capacity (ρ.review (overwrite write)).lines).map (·.map (·.2))
  have hrun : (Desk.mapValuesM t (Desk.asked write) []).1 = { t with buckets := chains.toArray } := by
    let f : List (Entry κ ν) → StateM (List ν) (List (Entry κ ν)) := (·.mapM (Desk.writeM (Desk.asked write)))
    have hchains : t.buckets.toList.mapM f [] = (chains, (ρ.listing.map pair).map (·.2)) := by
      rw [show t.buckets.toList.mapM f [] = _ from run_mapM_mapM_writeM write t.buckets.toList [], run_strands _ h hρ]
      rfl
    show { t with buckets := (t.buckets.toList.mapM f []).1.toArray } = _
    rw [hchains]
  have hlength : (ρ.review (overwrite write)).lines.length = ρ.lines.length := by
    have hlabels := congrArg List.length (ρ.labels_overwrite write)
    rwa [List.length_map, List.length_map] at hlabels
  rw [hrun]
  exact h.become rfl (h.size.trans hlength.symm) rfl (if_pos hlength).symm

theorem Shows.clear (h : t.Shows ρ) : t.clear.Shows ρ.cleared := by
  have hcapacity : t.clear.capacity = t.capacity := by simp [Table.clear, Table.capacity]
  refine ⟨⟨hcapacity ▸ h.lays.pos, fun i hi => ?_, rfl⟩, hcapacity.trans h.capacity, h.limit, congrArg (· + 1) h.changes⟩
  rw [hcapacity] at hi
  have hbucket : t.clear.buckets[i]? = some [] := by
    rw [Table.clear, Array.getElem?_map, Array.getElem?_eq_getElem hi]
    rfl
  rw [chain_eq, hbucket]
  rfl

end Table

end Switchboard
