/-
  Switchboard.Proofs.Table.Capacity — a table holds a list in the order of insertion, whatever its capacity.

  Nothing is assumed of the keying: hashing and sameness may contradict each other. What a table
  holds and what it answers to a key can be read off the list of its live entries (`Table.Holds`),
  and so can the list that an act on a key leaves (`Desk.KeyAct.upon`). The capacity shows where the
  entries are visited one after the other, for they are visited bucket by bucket:
  `removed_in_table_order` removes another entry at another capacity. Without such acts
  (`Desk.Act.Plain`) no answer to a key depends on capacity or limit.
-/

import Switchboard.Proofs.Table.Desk
import Switchboard.Table.Recipe

namespace Switchboard

open Desk (KeyAct Act Result)

variable {κ ν : Type} {s : Keying κ}

namespace Desk

def scan (s : Keying κ) (l : List (Entry κ ν)) (k : κ) : Option (κ × ν) :=
  (l.find? fun e => e.hash == s.hashOf k && s.same e.key k).map fun e => (e.key, e.value)

def index (s : Keying κ) (l : List (Entry κ ν)) (k : κ) : Nat :=
  l.findIdx fun e => e.hash == s.hashOf k && s.same e.key k

def KeyAct.upon (s : Keying κ) (a : KeyAct ν) (k : κ) (l : List (Entry κ ν)) : List (Entry κ ν) :=
  match scan s l k, a.outcome k (scan s l k) with
  | some _, some e => l.modify (index s l k) fun d => { d with value := e.2 }
  | some _, none => l.eraseIdx (index s l k)
  | none, some e => l ++ [⟨s.hashOf k, k, e.2⟩]
  | none, none => l

/-- An act for which the order of the table does not count: no cursor removes, and closures decide
    by the entry they are asked of. -/
def Act.Plain : Act κ ν → Prop
  | .retain keep => ∃ f : κ × ν → Option ν, ∀ seen e, keep (seen ++ [e]) = f e
  | .rewrite write => ∃ f : ν → ν, ∀ seen v, write (seen ++ [v]) = f v
  | .strike _ => False
  | _ => True

end Desk

/-- A scan of the lines is one of the entries. -/
theorem Roll.scan_live (ρ : Roll s ν) (k : κ) : Desk.scan s ρ.live k = (ρ.scan k).map Line.pair := by
  rw [Desk.scan, Roll.live, List.find?_map, Option.map_map]
  rfl

namespace Table

def share (capacity : Nat) (l : List (Entry κ ν)) (i : Nat) : List (Entry κ ν) :=
  l.filter fun e => e.hash.toNat &&& (capacity - 1) == i

/-- The table holds the entries of the list and finds in it what it is asked for. -/
structure Holds (t : Table s ν) (l : List (Entry κ ν)) : Prop where
  buckets : t.buckets.toList = (List.range t.capacity).map (share t.capacity l)
  size : t.size = l.length
  toList : t.toList = (List.range t.capacity).flatMap fun i => (share t.capacity l i).map fun e => (e.key, e.value)
  keys : t.keys = (List.range t.capacity).flatMap fun i => (share t.capacity l i).map (·.key)
  values : t.values = (List.range t.capacity).flatMap fun i => (share t.capacity l i).map (·.value)
  hash : ∀ e ∈ l, e.hash = if s.absent e.key then 0 else spread (s.hash e.key)
  absent : ∀ i, ∀ e ∈ t.chain i, s.absent e.key = true → i = 0
  answer : ∀ k (a : KeyAct ν), (Desk.keyed t k a).1 = a.answer (Desk.scan s l k)

variable {t : Table s ν} {ρ : Roll s ν}

/-- Of a power of two, the low bits are the remainder. -/
theorem share_eq {n : Nat} (hn : ∃ k, n = 2 ^ k) (l : List (Entry κ ν)) (i : Nat) :
    share n l i = l.filter fun e => bucketOf e.hash n == i := by
  obtain ⟨k, rfl⟩ := hn
  refine List.filter_congr fun e _ => ?_
  rw [Nat.and_two_pow_sub_one_eq_mod, bucketOf]

theorem Shows.holds (h : t.Shows ρ) (hρ : ρ.Sound) : t.Holds ρ.live := by
  have hshare := share_eq (h.capacity ▸ hρ.power) ρ.live
  have hentries : t.entries = (List.range t.capacity).flatMap (share t.capacity ρ.live) := by
    rw [h.lays.entries_eq]
    rw [funext hshare]
  have hhash : ∀ e ∈ ρ.live, e.hash = s.hashOf e.key := by
    intro e he
    obtain ⟨p, hp, rfl⟩ := List.mem_map.mp he
    exact hρ.hashed p hp
  refine ⟨?_, h.lays.size, ?_, ?_, ?_, hhash, fun i e he habsent => ?_, fun k a => ?_⟩
  · rw [buckets_eq]
    exact List.map_congr_left fun i hi => (h.lays.chain i (List.mem_range.mp hi)).trans (hshare i).symm
  · rw [Table.toList, hentries, List.map_flatMap]
  · rw [Table.keys, hentries, List.map_flatMap]
  · rw [Table.values, hentries, List.map_flatMap]
  · by_cases hi : i < t.capacity
    · rw [h.lays.chain i hi] at he
      obtain ⟨he, hb⟩ := List.mem_filter.mp he
      rw [hhash e he, Keying.hashOf_of_absent habsent] at hb
      rw [beq_iff_eq] at hb
      exact hb.symm.trans (Nat.zero_mod _)
    · rw [chain_eq, Array.getElem?_eq_none (Nat.le_of_not_lt hi)] at he
      cases he
  · rw [(h.keyed hρ k a).1, Roll.scan_live]

end Table

namespace Roll

variable {ρ σ : Roll s ν}

/-- The list after an act on a key. -/
theorem live_store (hρ : ρ.Sound) (k : κ) (a : KeyAct ν) :
    (ρ.store k (ρ.scan k) (a.outcome k ((ρ.scan k).map Line.pair))).live = a.upon s k ρ.live := by
  rw [KeyAct.upon, scan_live]
  cases hfound : ρ.scan k with
  | none =>
    rw [Option.map_none]
    cases a.outcome k none with
    | none => rfl
    | some e => exact List.map_append ..
  | some p =>
    have hp : ρ.lines[Desk.index s ρ.live k]? = some p := by
      rw [← hfound, Roll.scan, List.find?_eq_getElem?_findIdx, Desk.index, live, List.findIdx_map]
      rfl
    rw [Option.map_some]
    cases a.outcome k (some p.pair) with
    | none => exact Line.entries_amend_none hρ.rising.nodup hp
    | some e => exact Line.entries_amend_some hρ.rising.nodup hp rfl

theorem verdicts_plain {keep : List (κ × ν) → Option ν} {f : κ × ν → Option ν} (hf : ∀ seen e, keep (seen ++ [e]) = f e)
    (seen : List (κ × ν)) (l : List (Line κ ν)) : Line.verdicts keep seen l = l.map fun p => (p.1, f p.pair) := by
  induction l generalizing seen with
  | nil => rfl
  | cons p l ih => rw [Line.verdicts, ih, hf, List.map_cons]

/-- Closures that decide by the entry alone come to the same in any order. -/
theorem review_plain (hρ : ρ.Sound) {keep : List (κ × ν) → Option ν} {f : κ × ν → Option ν}
    (hf : ∀ seen e, keep (seen ++ [e]) = f e) :
    (ρ.review keep).lines = ρ.lines.filterMap fun p => (f p.pair).map p.write := by
  have hnodup : ((Line.verdicts keep [] ρ.listing).map (·.1)).Nodup := by
    rw [Line.numbers_verdicts]
    exact Line.nodup_arranged hρ.rising hρ.pos
  show Line.amendAll ρ.lines (Line.verdicts keep [] ρ.listing) = _
  rw [Line.amendAll_eq_filterMap hnodup]
  refine List.filterMap_congr fun p hp => ?_
  have hmem : (p.1, f p.pair) ∈ Line.verdicts keep [] ρ.listing := by
    rw [verdicts_plain hf]
    exact List.mem_map_of_mem (f := fun p : Line κ ν => (p.1, f p.pair)) ((Line.arranged_perm hρ.pos _).mem_iff.mpr hp)
  rw [Line.find?_number hnodup hmem]

/-- Two rolls with the same insertions, whatever their capacities. -/
structure Alike (ρ σ : Roll s ν) : Prop where
  lines : ρ.lines = σ.lines
  inserted : ρ.inserted = σ.inserted

theorem Alike.scan (h : ρ.Alike σ) (k : κ) : ρ.scan k = σ.scan k := by rw [Roll.scan, h.lines, Roll.scan]

theorem Alike.store (h : ρ.Alike σ) (k : κ) (found : Option (Line κ ν)) (o : Option (κ × ν)) :
    (ρ.store k found o).Alike (σ.store k found o) := by
  cases found with
  | some p => exact ⟨by rw [Roll.store, Roll.store, become, become, h.lines], h.inserted⟩
  | none =>
    cases o with
    | none => exact h
    | some e =>
      refine ⟨?_, congrArg (· + 1) h.inserted⟩
      show ρ.lines ++ [(ρ.inserted, _)] = σ.lines ++ [(σ.inserted, _)]
      rw [h.lines, h.inserted]

/-- A plain act keeps them so, and answers to keys alike. -/
theorem Alike.act {b b' : Book s ν} (h : b.roll.Alike b'.roll) (hb : b.roll.Sound) (hb' : b'.roll.Sound) {a : Act κ ν}
    (ha : a.Plain) :
    (b.act a).2.roll.Alike (b'.act a).2.roll ∧ ∀ k x, a = .key k x → (b.act a).1 = (b'.act a).1 := by
  cases a with
  | key k a =>
    have hstore := h.store k (b'.roll.scan k) (a.outcome k ((b'.roll.scan k).map Line.pair))
    rw [Book.act, Book.act, h.scan]
    exact ⟨hstore, fun _ _ _ => rfl⟩
  | retain keep =>
    obtain ⟨f, hf⟩ := ha
    refine ⟨⟨?_, h.inserted⟩, fun _ _ he => by cases he⟩
    exact (review_plain hb hf).trans ((congrArg _ h.lines).trans (review_plain hb' hf).symm)
  | clear => exact ⟨⟨rfl, h.inserted⟩, fun _ _ he => by cases he⟩
  | rewrite write =>
    obtain ⟨f, hf⟩ := ha
    have hoverwrite : ∀ (seen : List (κ × ν)) e, Line.overwrite write (seen ++ [e]) = some (f e.2) := by
      intro seen e
      rw [Line.overwrite, List.map_append, List.map_cons, List.map_nil, hf]
    refine ⟨⟨?_, h.inserted⟩, fun _ _ he => by cases he⟩
    exact (review_plain hb hoverwrite).trans ((congrArg _ h.lines).trans (review_plain hb' hoverwrite).symm)
  | cursor => exact ⟨h, fun _ _ he => by cases he⟩
  | clone c => exact ⟨h, fun _ _ he => by cases he⟩
  | next c =>
    refine ⟨?_, fun _ _ he => by cases he⟩
    rw [Book.act, Book.act]
    split <;> split <;> exact h
  | strike c => exact ha.elim

theorem Alike.run {b b' : Book s ν} (h : b.roll.Alike b'.roll) (hb : b.roll.Sound) (hb' : b'.roll.Sound)
    {as : List (Act κ ν)} (has : ∀ a ∈ as, a.Plain) :
    (b.run as).2.roll.Alike (b'.run as).2.roll ∧
      ∀ (i : Nat) k x, as[i]? = some (.key k x) → (b.run as).1[i]? = (b'.run as).1[i]? := by
  induction as generalizing b b' with
  | nil => exact ⟨h, fun i k x hi => by cases hi⟩
  | cons a as ih =>
    obtain ⟨hact, hkey⟩ := h.act hb hb' (has a (List.mem_cons_self ..))
    obtain ⟨hrun, hkeys⟩ := ih hact (hb.act a) (hb'.act a) fun x hx => has x (List.mem_cons_of_mem _ hx)
    refine ⟨hrun, fun i k x hi => ?_⟩
    cases i with
    | zero => exact congrArg some (hkey k x (Option.some.inj hi))
    | succ i => exact hkeys i k x hi

end Roll

/-! ## The list behind a table -/

namespace Desk

/-- The list of live entries behind the desk's table: those inserted, in the order of their insertion. -/
theorem holds_in_order (s : Keying κ) (ν : Type) (capacity limit : Nat) (acts : List (Act κ ν)) :
    let d := (start s ν capacity limit).run acts
    let b := (Book.start s ν capacity limit).run acts
    d.1 = b.1 ∧ d.2.table.Holds b.2.roll.live ∧ b.2.roll.lines.Pairwise (fun p q => p.1 < q.1) ∧
      (∀ k a, (keyed d.2.table k a).2.Holds (a.upon s k b.2.roll.live)) ∧
      ∀ capacity' limit', (∀ a ∈ acts, a.Plain) →
        let d' := (start s ν capacity' limit').run acts
        d'.2.table.Holds b.2.roll.live ∧ ∀ (i : Nat) k a, acts[i]? = some (.key k a) → d.1[i]? = d'.1[i]? := by
  obtain ⟨hresults, hshows⟩ := (shows_start s ν capacity limit).run acts
  refine ⟨hresults, hshows.table.holds hshows.sound, hshows.sound.rising, fun k a => ?_, fun capacity' limit' hplain => ?_⟩
  · rw [← Roll.live_store hshows.sound]
    have hkey := hshows.act (.key k a)
    exact hkey.2.table.holds hkey.2.sound
  · obtain ⟨hresults', hshows'⟩ := (shows_start s ν capacity' limit').run acts
    have halike : (Book.start s ν capacity limit).roll.Alike (Book.start s ν capacity' limit').roll := ⟨rfl, rfl⟩
    obtain ⟨hlines, hkeys⟩ := halike.run (Roll.sound_start ..) (Roll.sound_start ..) hplain
    refine ⟨?_, ?_⟩
    · have hlive := hshows'.table.holds hshows'.sound
      rwa [Roll.live, ← hlines.lines] at hlive
    · rw [hresults, hresults']
      exact hkeys

/-- Two entries in one bucket or in two, and none kept but the first: the key is answered alike. -/
theorem holds_in_order_narrow :
    let s : Keying Key := Recipe.keying ⟨.low, .exact, none⟩
    let acts : List (Act Key Nat) :=
      [.key (.int 1) (.put 10), .key (.int 5) (.put 50), .retain fun seen => seen.getLast?.bind fun e =>
        if e.2 < 20 then some (e.2 + 1) else none, .key (.int 5) .contains, .key (.int 1) .get]
    (∀ a ∈ acts, a.Plain) ∧
      ((start s Nat 16 Table.maxCapacity).run acts).1[4]? = ((start s Nat 1 1).run acts).1[4]? ∧
      ((start s Nat 1 1).run acts).1[4]? = some (.value (some 11)) ∧
      ((start s Nat 16 Table.maxCapacity).run acts).2.table.capacity = 16 ∧ ((start s Nat 1 1).run acts).2.table.capacity = 1 := by
  intro s acts
  have hplain : ∀ a ∈ acts, a.Plain := by
    intro a ha
    simp only [acts, List.mem_cons, List.not_mem_nil, or_false] at ha
    rcases ha with rfl | rfl | rfl | rfl | rfl
    case inr.inr.inl => exact ⟨fun e => if e.2 < 20 then some (e.2 + 1) else none, fun seen e => by simp⟩
    all_goals trivial
  have hsame := ((holds_in_order s Nat 16 Table.maxCapacity acts).2.2.2.2 1 1 hplain).2 4 (.int 1) .get rfl
  exact ⟨hplain, hsame, by decide +kernel, by decide +kernel, by decide +kernel⟩

/-- A cursor removes what is first in the table, and that depends on the capacity: so does what a key
    is answered later. -/
theorem removed_in_table_order :
    let s : Keying Key := Recipe.keying ⟨.low, .exact, none⟩
    ¬ ∀ (capacity limit capacity' limit' : Nat) (acts : List (Act Key Nat)) (i : Nat) (k : Key) (a : KeyAct Nat),
      acts[i]? = some (.key k a) →
        ((start s Nat capacity limit).run acts).1[i]? = ((start s Nat capacity' limit').run acts).1[i]? := by
  intro s h
  let acts : List (Act Key Nat) :=
    [.key (.int 1) (.put 10), .key (.int 5) (.put 50), .cursor, .next 0, .strike 0, .key (.int 1) .get]
  have hwide : ((start s Nat 16 Table.maxCapacity).run acts).1[5]? = some (.value (some 10)) := by decide +kernel
  have hnarrow : ((start s Nat 1 Table.maxCapacity).run acts).1[5]? = some (.value none) := by decide +kernel
  have hsame := h 16 Table.maxCapacity 1 Table.maxCapacity acts 5 (.int 1) .get rfl
  rw [hwide, hnarrow] at hsame
  cases hsame

end Desk

end Switchboard
