/-
  Switchboard.Proofs.Table.Optional — a table over optional keys is a table beside a cell.

  The present keys of a lifted keying are told apart as they were before, and the absent key is the same
  as no other: each is a part of the keying that looks like one of its own (`Keying.Part`). What a table
  holds of one part is a list of entries of that keying, and an act on a key of the part does to it what
  it does to the list of a table of that keying (`Part.upon_within`), and nothing to another part
  (`Part.upon_outside`). No capacity comes in, so the tables may double at different times.

  `optional_faithful`: the answers to present keys are those of a plain table that is not asked of the
  absent key, those to the absent key are those of a cell that holds one value or none.
-/

import Switchboard.Proofs.Table.Capacity

namespace Switchboard

open Desk (KeyAct Act Result)

/-! ## Lists: the first match in a part -/

namespace FirstMatch

variable {α β : Type} {g : α → Option β} {f : α → α} {f' : β → β} {i : Nat}

theorem modify_part (q : β → Bool) (hf : ∀ e, g (f e) = (g e).map f') (l : List α) :
    (l.modify (l.findIdx fun e => (g e).any q) f).filterMap g =
      (l.filterMap g).modify ((l.filterMap g).findIdx q) f' := by
  induction l with
  | nil => rfl
  | cons e l ih =>
    have hfe := hf e
    cases hg : g e with
    | none => simp [List.findIdx_cons, hg, ih]
    | some d =>
      rw [hg] at hfe
      cases hq : q d with
      | false => simp [List.findIdx_cons, hq, hg, ih]
      | true => simp [List.findIdx_cons, hq, hg, hfe]

theorem erase_part (q : β → Bool) (l : List α) :
    (l.eraseIdx (l.findIdx fun e => (g e).any q)).filterMap g =
      (l.filterMap g).eraseIdx ((l.filterMap g).findIdx q) := by
  induction l with
  | nil => rfl
  | cons e l ih =>
    cases hg : g e with
    | none => simp [List.findIdx_cons, hg, ih]
    | some d =>
      cases hq : q d with
      | false => simp [List.findIdx_cons, hq, hg, ih]
      | true => simp [List.findIdx_cons, hq, hg]

variable {l : List α}

/-- A change to a member outside the part does not show in it. -/
theorem modify_outside (hi : ∀ e, l[i]? = some e → g e = none ∧ g (f e) = none) :
    (l.modify i f).filterMap g = l.filterMap g := by
  by_cases hlt : i < l.length
  · obtain ⟨hg, hf⟩ := hi l[i] (List.getElem?_eq_getElem hlt)
    conv_rhs => rw [← List.take_append_drop i l, List.drop_eq_getElem_cons hlt]
    rw [List.modify_eq_take_cons_drop hlt, List.filterMap_append, List.filterMap_append, List.filterMap_cons_none hf,
      List.filterMap_cons_none hg]
  · rw [List.modify_eq_self (Nat.le_of_not_lt hlt)]

theorem erase_outside (hi : ∀ e, l[i]? = some e → g e = none) : (l.eraseIdx i).filterMap g = l.filterMap g := by
  by_cases hlt : i < l.length
  · have hg := hi l[i] (List.getElem?_eq_getElem hlt)
    conv_rhs => rw [← List.take_append_drop i l, List.drop_eq_getElem_cons hlt]
    rw [List.eraseIdx_eq_take_drop_succ, List.filterMap_append, List.filterMap_append, List.filterMap_cons_none hg]
  · rw [List.eraseIdx_of_length_le (Nat.le_of_not_lt hlt)]

end FirstMatch

/-! ## A part of the keys -/

def Entry.within {κ κ' ν : Type} (r : κ → Option κ') (e : Entry κ ν) : Option (Entry κ' ν) :=
  (r e.key).map fun k => ⟨e.hash, k, e.value⟩

namespace Keying

variable {κ κ' κ'' ν : Type} {s : Keying κ} {s' : Keying κ'} {f : κ' → κ} {r : κ → Option κ'}

/-- The keys `f k` of one keying are told apart, and from all others, as the keys `k` of another are;
    `r` tells which keys these are. -/
structure Part (s : Keying κ) (s' : Keying κ') (f : κ' → κ) (r : κ → Option κ') : Prop where
  own : ∀ k, r (f k) = some k
  eq : ∀ {j k}, r j = some k → j = f k
  hash : ∀ k, s.hashOf (f k) = s'.hashOf k
  same : ∀ j k, s.same j (f k) = (r j).any (s'.same · k)

namespace Part

variable (h : Part s s' f r) (l : List (Entry κ ν)) (k : κ')
include h

/-- An entry answers to a key of the part if it is of the part and answers to it there. -/
theorem answers : (fun e : Entry κ ν => e.hash == s.hashOf (f k) && s.same e.key (f k)) =
    fun e => (e.within r).any fun d => d.hash == s'.hashOf k && s'.same d.key k := by
  funext e
  rw [h.hash, h.same, Entry.within]
  cases r e.key with
  | none => simp
  | some j => rfl

theorem pair_within {e : Entry κ ν} {d : Entry κ' ν} (hd : e.within r = some d) :
    (e.key, e.value) = (f d.key, d.value) := by
  obtain ⟨j, hj, rfl⟩ := Option.map_eq_some_iff.mp hd
  rw [h.eq hj]

omit h in
theorem within_of_find? {q : Entry κ' ν → Bool} {e : Entry κ ν}
    (he : l.find? (fun e => (e.within r).any q) = some e) : ∃ d, e.within r = some d := by
  have hany := List.find?_some (p := fun e : Entry κ ν => (e.within r).any q) he
  obtain ⟨d, hd, -⟩ := (Option.any_eq_true ..).mp hany
  exact ⟨d, hd⟩

theorem scan_within : Desk.scan s l (f k) = (Desk.scan s' (l.filterMap (·.within r)) k).map (Prod.map f id) := by
  rw [Desk.scan, Desk.scan, h.answers, List.find?_filterMap, Option.map_map]
  cases hfind : l.find? fun e => (e.within r).any fun d => d.hash == s'.hashOf k && s'.same d.key k with
  | none => rfl
  | some e =>
    obtain ⟨d, hd⟩ := within_of_find? l hfind
    rw [Option.bind_some, hd, Option.map_some, Option.map_some, h.pair_within hd]
    rfl

theorem index_within : Desk.index s l (f k) =
    l.findIdx fun e => (e.within r).any fun d => d.hash == s'.hashOf k && s'.same d.key k := by
  rw [Desk.index, h.answers]

/-- An act does to the part what it does to a list of the part's own. -/
theorem upon_within (a : KeyAct ν) :
    (a.upon s (f k) l).filterMap (·.within r) = a.upon s' k (l.filterMap (·.within r)) := by
  have houtcome : ∀ found, a.outcome (f k) (found.map (Prod.map f id)) = (a.outcome k found).map (Prod.map f id) := by
    intro found
    cases a <;> cases found <;> rfl
  rw [KeyAct.upon, KeyAct.upon, h.scan_within, houtcome]
  cases Desk.scan s' (l.filterMap (·.within r)) k with
  | some x =>
    cases a.outcome k (some x) with
    | some y =>
      show (l.modify (Desk.index s l (f k)) fun e => { e with value := y.2 }).filterMap _ = _
      rw [h.index_within]
      refine FirstMatch.modify_part _ (fun e => ?_) l
      rw [Entry.within, Entry.within, Option.map_map]
      rfl
    | none =>
      show (l.eraseIdx (Desk.index s l (f k))).filterMap _ = _
      rw [h.index_within]
      exact FirstMatch.erase_part _ l
  | none =>
    cases a.outcome k none with
    | some y =>
      let e : Entry κ ν := ⟨s.hashOf (f k), f k, y.2⟩
      have he : e.within r = some ⟨s'.hashOf k, k, y.2⟩ := by
        rw [← h.hash, Entry.within, h.own]
        rfl
      show (l ++ [e]).filterMap (·.within r) = l.filterMap (·.within r) ++ [_]
      rw [List.filterMap_append, List.filterMap_cons_some he, List.filterMap_nil]
    | none => rfl

/-- It does nothing to another part. -/
theorem upon_outside (a : KeyAct ν) {r' : κ → Option κ''} (hr : ∀ j, (r j).isSome → r' j = none) :
    (a.upon s (f k) l).filterMap (·.within r') = l.filterMap (·.within r') := by
  have hwithin : ∀ {e : Entry κ ν}, (r e.key).isSome → e.within r' = none := by
    intro e he
    rw [Entry.within, hr _ he]
    rfl
  have hindex : ∀ e, l[Desk.index s l (f k)]? = some e → (r e.key).isSome := by
    intro e he
    rw [h.index_within, ← List.find?_eq_getElem?_findIdx] at he
    obtain ⟨d, hd⟩ := within_of_find? l he
    obtain ⟨j, hj, -⟩ := Option.map_eq_some_iff.mp hd
    rw [hj]
    rfl
  rw [KeyAct.upon]
  cases Desk.scan s l (f k) with
  | some x =>
    cases a.outcome (f k) (some x) with
    | some y =>
      refine FirstMatch.modify_outside fun e he => ⟨hwithin (hindex e he), ?_⟩
      have hkey : (r ({ e with value := y.2 } : Entry κ ν).key).isSome := hindex e he
      exact hwithin hkey
    | none => exact FirstMatch.erase_outside fun e he => hwithin (hindex e he)
  | none =>
    cases a.outcome (f k) none with
    | some y =>
      let e : Entry κ ν := ⟨s.hashOf (f k), f k, y.2⟩
      have he : e.within r' = none := hwithin (by rw [h.own]; rfl)
      show (l ++ [e]).filterMap (·.within r') = _
      rw [List.filterMap_append, List.filterMap_cons_none he, List.filterMap_nil, List.append_nil]
    | none => rfl

end Part

/-! ## Present keys and the absent one -/

def sole : Keying Unit where
  hash _ := 0
  same _ _ := true
  absent _ := true

def absentOnly : Option κ → Option Unit
  | none => some ()
  | some _ => none

theorem part_present (hs : ∀ k, s.absent k = false) : Part s.optional s some id where
  own _ := rfl
  eq h := h
  hash k := by
    have habsent : s.optional.absent (some k) = false := rfl
    rw [hashOf, hashOf, habsent, hs]
    rfl
  same j k := by cases j <;> rfl

theorem part_absent (s : Keying κ) : Part s.optional sole (fun _ => none) absentOnly where
  own _ := rfl
  eq {j _} h := by
    cases j with
    | none => rfl
    | some j => cases h
  hash _ := rfl
  same j _ := by cases j <;> rfl

theorem same_optional {j k : Option κ} (h : s.optional.same j k = true) :
    (j = none ∧ k = none) ∨ ∃ i i', j = some i ∧ k = some i' ∧ s.same i i' = true := by
  cases j with
  | none =>
    cases k with
    | none => exact Or.inl ⟨rfl, rfl⟩
    | some k => cases h
  | some j =>
    cases k with
    | none => cases h
    | some k => exact Or.inr ⟨j, k, rfl, rfl, h⟩

/-- An optional keying is lawful if what it lifts is. -/
theorem Lawful.optional (h : s.Lawful) : s.optional.Lawful where
  refl k := by
    cases k with
    | none => rfl
    | some k => exact h.refl k
  symm {j k} hjk := by
    rcases same_optional hjk with ⟨rfl, rfl⟩ | ⟨j, k, rfl, rfl, hsame⟩
    · rfl
    · exact h.symm hsame
  trans {i j k} hij hjk := by
    rcases same_optional hij with ⟨rfl, rfl⟩ | ⟨i, j, rfl, rfl, hsame⟩
    · exact hjk
    · rcases same_optional hjk with ⟨hj, -⟩ | ⟨j', k, hj, rfl, hsame'⟩
      · cases hj
      · cases hj
        exact h.trans hsame hsame'
  hash {j k} hjk := by
    rcases same_optional hjk with ⟨rfl, rfl⟩ | ⟨j, k, rfl, rfl, hsame⟩
    · rfl
    · exact h.hash hsame
  absent {j k} hjk := by
    rcases same_optional hjk with ⟨rfl, rfl⟩ | ⟨j, k, rfl, rfl, -⟩
    · rfl
    · rfl

end Keying

variable {κ ν : Type} {s : Keying κ}

/-! ## A cell -/

/-- What is asked of a cell, which holds one value or none. -/
inductive CellAct (ν : Type) where
  | key (a : KeyAct ν)
  | clear

def CellAct.act (x : Option ν) : CellAct ν → Result (Option κ) ν × Option ν
  | .key a =>
    let found := x.map (Prod.mk none)
    (a.answer found, (a.outcome none found).map (·.2))
  | .clear => (.done, none)

def CellAct.run (x : Option ν) : List (CellAct ν) → List (Result (Option κ) ν) × Option ν
  | [] => ([], x)
  | a :: as =>
    let (r, x) := a.act x
    let (rs, x) := CellAct.run x as
    (r :: rs, x)

namespace Desk

def Result.lift {κ' : Type} (f : κ → κ') : Result κ ν → Result κ' ν
  | .value v => .value v
  | .entry e => .entry (e.map (Prod.map f id))
  | .flag b => .flag b
  | .visited es => .visited (es.map (Prod.map f id))
  | .struck e => .struck (Prod.map f id e)
  | .refused e => .refused e
  | .done => .done

def Act.Keyed : Act κ ν → Prop
  | .key _ _ | .clear => True
  | _ => False

def Act.present : Act (Option κ) ν → Option (Act κ ν)
  | .key (some k) a => some (.key k a)
  | .clear => some .clear
  | _ => none

def Act.vacant : Act (Option κ) ν → Option (CellAct ν)
  | .key none a => some (.key a)
  | .clear => some .clear
  | _ => none

def resultsOf {β : Type} (f : Act κ ν → Option β) (acts : List (Act κ ν)) (rs : List (Result κ ν)) :
    List (Result κ ν) :=
  ((acts.zip rs).filter fun x => (f x.1).isSome).map (·.2)

theorem KeyAct.answer_lift {κ' : Type} (f : κ → κ') (a : KeyAct ν) (found : Option (κ × ν)) :
    a.answer (found.map (Prod.map f id)) = (a.answer found).lift f := by
  cases a <;> cases found <;> rfl

end Desk

namespace Book

theorem act_key (b : Book s ν) (hb : b.roll.Sound) (k : κ) (a : KeyAct ν) :
    (b.act (.key k a)).1 = a.answer (Desk.scan s b.roll.live k) ∧
      (b.act (.key k a)).2.roll.live = a.upon s k b.roll.live :=
  ⟨by rw [Roll.scan_live]; rfl, Roll.live_store hb k a⟩

open Keying

/-- One book holds what the other holds of the present keys and the cell of the absent one. -/
structure Mirrors (b : Book s.optional ν) (c : Book s ν) (x : Option ν) : Prop where
  present : b.roll.live.filterMap (·.within id) = c.roll.live
  vacant : b.roll.live.filterMap (·.within absentOnly) = x.toList.map (Entry.mk 0 ())

variable {b : Book s.optional ν} {c : Book s ν} {x : Option ν}

theorem Mirrors.act_some (h : b.Mirrors c x) (hb : b.roll.Sound) (hc : c.roll.Sound) (hs : ∀ k, s.absent k = false)
    (k : κ) (a : KeyAct ν) : (b.act (.key (some k) a)).1 = (c.act (.key k a)).1.lift some ∧
      (b.act (.key (some k) a)).2.Mirrors (c.act (.key k a)).2 x := by
  obtain ⟨hbr, hbl⟩ := b.act_key hb (some k) a
  obtain ⟨hcr, hcl⟩ := c.act_key hc k a
  have hpart := part_present hs
  refine ⟨?_, ?_, ?_⟩
  · rw [hbr, hcr, hpart.scan_within, h.present, KeyAct.answer_lift]
  · rw [hbl, hcl, hpart.upon_within, h.present]
  · have hother : ∀ j : Option κ, (id j).isSome → absentOnly j = none := by
      intro j hj
      cases j with
      | none => cases hj
      | some j => rfl
    rw [hbl, hpart.upon_outside _ k a hother, h.vacant]

theorem Mirrors.act_none (h : b.Mirrors c x) (hb : b.roll.Sound) (a : KeyAct ν) :
    (b.act (.key none a)).1 = ((CellAct.key a).act x).1 ∧
      (b.act (.key none a)).2.Mirrors c ((CellAct.key a).act (κ := κ) x).2 := by
  obtain ⟨hbr, hbl⟩ := b.act_key hb none a
  have hpart := part_absent s
  have hscan : Desk.scan sole (x.toList.map (Entry.mk 0 ())) () = x.map (Prod.mk ()) := by
    cases x <;> rfl
  have hupon : a.upon sole () (x.toList.map (Entry.mk 0 ())) =
      ((CellAct.key a).act (κ := κ) x).2.toList.map (Entry.mk 0 ()) := by
    cases x <;> cases a <;> rfl
  refine ⟨?_, ?_, ?_⟩
  · rw [hbr, hpart.scan_within _ (), h.vacant, hscan, Option.map_map]
    rfl
  · have hother : ∀ j : Option κ, (absentOnly j).isSome → id j = none := by
      intro j hj
      cases j with
      | none => rfl
      | some j => cases hj
    rw [hbl, hpart.upon_outside _ () a hother, h.present]
  · rw [hbl, hpart.upon_within _ (), h.vacant, hupon]

theorem Mirrors.clear (b : Book s.optional ν) (c : Book s ν) : (b.act .clear).2.Mirrors (c.act .clear).2 none :=
  ⟨rfl, rfl⟩

/-- Through a run, with each act done where it belongs. -/
theorem Mirrors.run (h : b.Mirrors c x) (hb : b.roll.Sound) (hc : c.roll.Sound) (hs : ∀ k, s.absent k = false)
    {acts : List (Act (Option κ) ν)} (hacts : ∀ a ∈ acts, a.Keyed) :
    Desk.resultsOf Act.present acts (b.run acts).1 = (c.run (acts.filterMap Act.present)).1.map (·.lift some) ∧
    Desk.resultsOf Act.vacant acts (b.run acts).1 = (CellAct.run x (acts.filterMap Act.vacant)).1 ∧
    (b.run acts).2.Mirrors (c.run (acts.filterMap Act.present)).2
      (CellAct.run (κ := κ) x (acts.filterMap Act.vacant)).2 := by
  induction acts generalizing b c x with
  | nil => exact ⟨rfl, rfl, h⟩
  | cons a acts ih =>
    have hrest : ∀ a ∈ acts, a.Keyed := fun a ha => hacts a (List.mem_cons_of_mem _ ha)
    have ha : a.Keyed := hacts a (List.mem_cons_self ..)
    cases a with
    | key k a =>
      cases k with
      | some k =>
        obtain ⟨hr, hm⟩ := h.act_some hb hc hs k a
        obtain ⟨hpresent, hvacant, hlater⟩ := ih hm (hb.act _) (hc.act _) hrest
        exact ⟨congrArg₂ List.cons hr hpresent, hvacant, hlater⟩
      | none =>
        obtain ⟨hr, hm⟩ := h.act_none hb a
        obtain ⟨hpresent, hvacant, hlater⟩ := ih hm (hb.act _) hc hrest
        exact ⟨hpresent, congrArg₂ List.cons hr hvacant, hlater⟩
    | clear =>
      obtain ⟨hpresent, hvacant, hlater⟩ := ih (Mirrors.clear b c) (hb.act _) (hc.act _) hrest
      exact ⟨congrArg₂ List.cons rfl hpresent, congrArg₂ List.cons rfl hvacant, hlater⟩
    | _ => exact ha.elim

/-- No more than one entry is stored under the absent key. -/
theorem Mirrors.countP_isNone (h : b.Mirrors c x) : (b.roll.live.map (·.key)).countP (·.isNone) ≤ 1 := by
  have hcount : ∀ l : List (Entry (Option κ) ν),
      (l.map (·.key)).countP (·.isNone) = (l.filterMap (·.within absentOnly)).length := by
    intro l
    rw [List.countP_map, List.length_filterMap_eq_countP]
    refine List.countP_congr fun e _ => ?_
    rcases e with ⟨_, _ | _, _⟩ <;> exact Iff.rfl
  rw [hcount, h.vacant, List.length_map]
  cases x with
  | none => exact Nat.zero_le 1
  | some v => exact Nat.le_refl 1

end Book

/-- What is found is the same as what was looked for. -/
theorem Table.same_of_find? {t : Table s ν} {k : κ} {e : Entry κ ν} (h : t.find? k = some e) :
    s.same e.key k = true := by
  rw [find?_eq_chain] at h
  have hanswers := List.find?_some h
  rw [answers, Bool.and_eq_true] at hanswers
  exact hanswers.2

/-! ## The lifted table -/

namespace Desk

open Keying

/-- A table over optional keys, asked of keys and cleared in any order. -/
theorem optional_faithful (s : Keying κ) (hs : ∀ k, s.absent k = false) (ν : Type) (capacity limit : Nat)
    (acts : List (Act (Option κ) ν)) (hacts : ∀ a ∈ acts, a.Keyed) :
    let d := (start s.optional ν capacity limit).run acts
    let t := d.2.table
    (∀ capacity' limit', resultsOf Act.present acts d.1 =
      ((start s ν capacity' limit').run (acts.filterMap Act.present)).1.map (·.lift some)) ∧
    resultsOf Act.vacant acts d.1 = (CellAct.run none (acts.filterMap Act.vacant)).1 ∧
    (t.keys.countP (·.isNone) ≤ 1 ∧ ∀ i, ∀ e ∈ t.chain i, e.key = none → i = 0) ∧
    (∀ e, t.find? none = some e → e.key = none) ∧ (∀ k e, t.find? (some k) = some e → e.key ≠ none) ∧
    (s.Lawful → s.optional.Lawful) := by
  intro d t
  obtain ⟨hresults, hshows⟩ := (shows_start s.optional ν capacity limit).run acts
  have hmirrors : ∀ capacity' limit', (Book.start s.optional ν capacity limit).Mirrors
      (Book.start s ν capacity' limit') none := fun _ _ => ⟨rfl, rfl⟩
  have hrun := fun capacity' limit' =>
    (hmirrors capacity' limit').run (Roll.sound_start ..) (Roll.sound_start ..) hs hacts
  obtain ⟨-, hvacant, hlater⟩ := hrun 0 0
  refine ⟨fun capacity' limit' => ?_, ?_, ⟨?_, fun i e he hnone => ?_⟩, fun e he => ?_, fun k e he hnone => ?_,
    Lawful.optional⟩
  · rw [hresults, ((shows_start s ν capacity' limit').run _).1]
    exact (hrun capacity' limit').1
  · rw [hresults]
    exact hvacant
  · have hperm := hshows.table.lays.entries_perm.map Entry.key
    rw [Table.keys, hperm.countP_eq]
    exact hlater.countP_isNone
  · refine (hshows.table.holds hshows.sound).absent i e he ?_
    rw [hnone]
    rfl
  · rcases same_optional (Table.same_of_find? he) with ⟨hkey, -⟩ | ⟨_, _, -, hk, -⟩
    · exact hkey
    · cases hk
  · rcases same_optional (Table.same_of_find? he) with ⟨-, hk⟩ | ⟨_, _, hkey, -, -⟩
    · cases hk
    · rw [hnone] at hkey
      cases hkey

/-- All hashes are zero, and the table doubles twice. -/
theorem optional_faithful_zero :
    let s : Keying Key := Recipe.keying ⟨.const 0, .exact, none⟩
    let acts : List (Act (Option Key) Nat) :=
      [.key (some (.int 1)) (.put 10), .key none (.put 7), .key (some (.int 2)) (.getOrInsert 20 id),
        .key none .removeEntry, .key none (.put 8), .key (some (.int 1)) .removeEntry, .key none .get]
    let d := (start s.optional Nat 1 Table.maxCapacity).run acts
    (∀ k, s.absent k = false) ∧ (∀ a ∈ acts, a.Keyed) ∧
      resultsOf Act.vacant acts d.1 = [.value none, .entry (some (none, 7)), .value none, .value (some 8)] ∧
      resultsOf Act.present acts d.1 = ((start s Nat 16 16).run (acts.filterMap Act.present)).1.map (·.lift some) ∧
      d.2.table.capacity = 4 ∧ d.2.table.toList = [(some (.int 2), 20), (none, 8)] := by
  intro s acts
  have hs : ∀ k, s.absent k = false := fun _ => rfl
  have hacts : ∀ a ∈ acts, a.Keyed := by
    intro a ha
    simp only [acts, List.mem_cons, List.not_mem_nil, or_false] at ha
    rcases ha with rfl | rfl | rfl | rfl | rfl | rfl | rfl <;> trivial
  obtain ⟨hpresent, hvacant, -⟩ := optional_faithful s hs Nat 1 Table.maxCapacity acts hacts
  exact ⟨hs, hacts, hvacant.trans rfl, hpresent 16 16, by decide +kernel, by decide +kernel⟩

end Desk

end Switchboard
