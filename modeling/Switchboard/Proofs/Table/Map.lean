/-
  Switchboard.Proofs.Table.Map — under a lawful keying a table is a finite map.

  The keys fall into classes of keys that are the same (`Lawful.Class`). What a table holds is a
  finite map from classes to entries: the contents of its list of entries (`Lawful.contents`). Every
  act does to the map what `Desk.Act.Maps` says, and at no other class (`finite_map`).

  No two entries are of one class, for an insertion follows a scan that found none, and a scan
  finds any entry of the class: keys that are the same have the same hash.
-/

import Mathlib.Data.Set.Card
import Mathlib.Logic.Function.Basic
import Switchboard.Proofs.Table.Desk
import Switchboard.Proofs.Table.Shelf
import Switchboard.Table.Recipe

namespace Switchboard

variable {κ ν : Type} {s : Keying κ}

/-! ## Classes of keys -/

namespace Keying.Lawful

variable (hs : s.Lawful)

def setoid : Setoid κ where
  r j k := s.same j k = true
  iseqv := ⟨hs.refl, hs.symm, hs.trans⟩

abbrev Class : Type := Quotient hs.setoid

def classOf (k : κ) : hs.Class := Quotient.mk hs.setoid k

theorem classOf_eq {j k : κ} : hs.classOf j = hs.classOf k ↔ s.same j k = true := Quotient.eq

instance : DecidableEq hs.Class :=
  fun c d => Quotient.recOnSubsingleton₂ c d fun _ _ => decidable_of_iff _ hs.classOf_eq.symm

def contents (l : List (κ × ν)) : hs.Class → Option (κ × ν) :=
  Quotient.lift (fun k => l.find? fun e => s.same e.1 k) fun _ _ hjk =>
    FirstMatch.find?_congr fun e _ => Table.same_iff_of_same hs hjk e.1

def Distinct (s : Keying κ) (l : List (κ × ν)) : Prop := l.Pairwise fun d e => s.same d.1 e.1 = false

variable {l : List (κ × ν)} {c : hs.Class} {e : κ × ν}

theorem contents_classOf (l : List (κ × ν)) (k : κ) : hs.contents l (hs.classOf k) = l.find? fun e => s.same e.1 k := rfl

/-- An entry is the only one of its class. -/
theorem eq_of_class {β : Type} {f : β → κ} {xs : List β} (hxs : xs.Pairwise fun d e => s.same (f d) (f e) = false)
    {d e : β} (hd : d ∈ xs) (he : e ∈ xs) (hde : hs.classOf (f d) = hs.classOf (f e)) : d = e := by
  have hsymm : Std.Symm fun d e : β => s.same (f d) (f e) = false :=
    ⟨fun d e h => Bool.eq_false_iff.mpr fun hed => Bool.eq_false_iff.mp h (hs.symm hed)⟩
  by_contra hne
  have hdiffer : s.same (f d) (f e) = false := hxs.forall hd he hne
  rw [hs.classOf_eq.mp hde] at hdiffer
  cases hdiffer

theorem contents_eq_some (hl : Distinct s l) : hs.contents l c = some e ↔ e ∈ l ∧ hs.classOf e.1 = c := by
  induction c using Quotient.inductionOn with
  | h k =>
    change (l.find? fun e => s.same e.1 k) = some e ↔ e ∈ l ∧ hs.classOf e.1 = hs.classOf k
    constructor
    · intro h
      exact ⟨List.mem_of_find?_eq_some h, hs.classOf_eq.mpr (List.find?_some (p := fun e : κ × ν => s.same e.1 k) h)⟩
    · rintro ⟨he, hc⟩
      have hsome : (l.find? fun e => s.same e.1 k).isSome := List.find?_isSome.mpr ⟨e, he, hs.classOf_eq.mp hc⟩
      obtain ⟨d, hd⟩ := Option.isSome_iff_exists.mp hsome
      have hdk : hs.classOf d.1 = hs.classOf k := hs.classOf_eq.mpr (List.find?_some (p := fun e : κ × ν => s.same e.1 k) hd)
      rw [hd, hs.eq_of_class (f := Prod.fst) hl (List.mem_of_find?_eq_some hd) he (hdk.trans hc.symm)]

theorem contents_perm (hl : Distinct s l) {l' : List (κ × ν)} (hl' : Distinct s l') (h : l.Perm l') :
    hs.contents l = hs.contents l' := by
  funext c
  apply Option.ext
  intro e
  rw [hs.contents_eq_some hl, hs.contents_eq_some hl', h.mem_iff]

/-- As many classes are present as there are entries. -/
theorem ncard_present (hl : Distinct s l) : {c | hs.contents l c ≠ none}.ncard = l.length := by
  have hnodup : (l.map fun e => hs.classOf e.1).Nodup := by
    refine List.pairwise_map.mpr (hl.imp fun {d e} hde hc => ?_)
    rw [hs.classOf_eq.mp hc] at hde
    cases hde
  have hpresent : {c | hs.contents l c ≠ none} = ((l.map fun e => hs.classOf e.1).toFinset : Set hs.Class) := by
    ext c
    rw [List.coe_toFinset, Set.mem_ofPred_eq, Option.ne_none_iff_exists', Set.mem_ofPred_eq, List.mem_map]
    simp only [hs.contents_eq_some hl]
  rw [hpresent, Set.ncard_coe_finset, List.toFinset_card_of_nodup hnodup, List.length_map]

/-! ### One entry changes -/

theorem contents_concat {k : κ} (hk : hs.contents l (hs.classOf k) = none) (v : ν) :
    hs.contents (l ++ [(k, v)]) = Function.update (hs.contents l) (hs.classOf k) (some (k, v)) := by
  funext c
  induction c using Quotient.inductionOn with
  | h j =>
    change (l ++ [(k, v)]).find? (fun e => s.same e.1 j) = Function.update (hs.contents l) _ _ (hs.classOf j)
    rw [List.find?_append, Function.update_apply]
    by_cases hjk : hs.classOf j = hs.classOf k
    · have hnone : (l.find? fun e => s.same e.1 j) = none := by
        rw [← hs.contents_classOf, hjk, hk]
      rw [if_pos hjk, hnone]
      simp [hs.classOf_eq.mp hjk.symm]
    · have hkj : s.same k j = false := Bool.eq_false_iff.mpr fun h => hjk (hs.classOf_eq.mpr h).symm
      rw [if_neg hjk]
      simp [hkj, hs.contents_classOf]

/-! ### Lines are amended -/

section Amend

open Line

variable {l : List (Line κ ν)} {ys : List (Nat × Option ν)}

theorem Distinct.of_labels {l' : List (Line κ ν)} (hl : Distinct s (l.map pair)) (h : (l'.map label).Sublist (l.map label)) :
    Distinct s (l'.map pair) := by
  have hkeys : ∀ m : List (Line κ ν), Distinct s (m.map pair) ↔ (m.map label).Pairwise fun x y => s.same x.2.2 y.2.2 = false := by
    intro m
    rw [Distinct, List.pairwise_map, List.pairwise_map]
    rfl
  rw [hkeys] at hl ⊢
  exact hl.sublist h

theorem distinct_amendAll (hl : Distinct s (l.map pair)) (ys : List (Nat × Option ν)) :
    Distinct s ((amendAll l ys).map pair) :=
  hl.of_labels (labels_amendAll_sublist l ys)

theorem line_of_class (hl : Distinct s (l.map pair)) {p q : Line κ ν} (hp : p ∈ l) (hq : q ∈ l)
    (hpq : hs.classOf p.2.key = hs.classOf q.2.key) : p = q :=
  hs.eq_of_class (List.pairwise_map.mp hl) hp hq hpq

variable (hl : Distinct s (l.map pair)) (hys : (ys.map (·.1)).Nodup)
include hl hys

/-- An amended entry keeps its key; it is gone if no value is left. -/
theorem contents_of_amended {x : Line κ ν} (hx : x ∈ l) {o : Option ν} (ho : (x.1, o) ∈ ys) :
    hs.contents ((amendAll l ys).map pair) (hs.classOf x.2.key) = o.map (Prod.mk x.2.key) := by
  apply Option.ext
  intro e
  rw [hs.contents_eq_some (distinct_amendAll hl ys), Option.map_eq_some_iff, List.mem_map]
  constructor
  · rintro ⟨⟨p, hp, rfl⟩, hc⟩
    obtain ⟨q, hq, ⟨v, hv, rfl⟩ | ⟨hno, rfl⟩⟩ := (mem_amendAll hys).mp hp
    · obtain rfl := hs.line_of_class hl hq hx hc
      have hov : (q.1, o) = (q.1, some v) := eq_of_number hys ho hv rfl
      exact ⟨v, (Prod.mk.inj hov).2, rfl⟩
    · obtain rfl := hs.line_of_class hl hq hx hc
      exact absurd (List.mem_map_of_mem (f := (·.1)) ho) hno
  · rintro ⟨v, rfl, rfl⟩
    exact ⟨⟨x.write v, (mem_amendAll hys).mpr ⟨x, hx, Or.inl ⟨v, ho, rfl⟩⟩, rfl⟩, rfl⟩

/-- Every other entry stays as it is. -/
theorem contents_of_not_amended {c : hs.Class} (hc : ∀ x ∈ l, hs.classOf x.2.key = c → x.1 ∉ ys.map (·.1)) :
    hs.contents ((amendAll l ys).map pair) c = hs.contents (l.map pair) c := by
  apply Option.ext
  intro e
  rw [hs.contents_eq_some (distinct_amendAll hl ys), hs.contents_eq_some hl, List.mem_map, List.mem_map]
  constructor
  · rintro ⟨⟨p, hp, rfl⟩, hp'⟩
    obtain ⟨q, hq, ⟨v, hv, rfl⟩ | ⟨-, rfl⟩⟩ := (mem_amendAll hys).mp hp
    · exact absurd (List.mem_map_of_mem (f := (·.1)) hv) (hc q hq hp')
    · exact ⟨⟨p, hq, rfl⟩, hp'⟩
  · rintro ⟨⟨p, hp, rfl⟩, hp'⟩
    exact ⟨⟨p, (mem_amendAll hys).mpr ⟨p, hp, Or.inr ⟨hc p hp hp', rfl⟩⟩, rfl⟩, hp'⟩

omit hys

/-- One entry is amended. -/
theorem contents_amend (hn : (l.map (·.1)).Nodup) {x : Line κ ν} (hx : x ∈ l) (o : Option ν) :
    hs.contents ((amend l x.1 o).map pair) =
      Function.update (hs.contents (l.map pair)) (hs.classOf x.2.key) (o.map (Prod.mk x.2.key)) := by
  have hys : ([(x.1, o)].map (·.1)).Nodup := List.nodup_singleton _
  funext c
  rw [Function.update_apply]
  by_cases hc : c = hs.classOf x.2.key
  · rw [if_pos hc, hc]
    exact hs.contents_of_amended hl hys hx (List.mem_singleton.mpr rfl)
  · rw [if_neg hc]
    refine hs.contents_of_not_amended hl hys fun y hy hyc hmem => hc ?_
    rw [← hyc, eq_of_number hn hy hx (List.mem_singleton.mp hmem)]

end Amend

end Keying.Lawful

/-! ## What acts do to the map -/

open Keying.Lawful (Distinct)

namespace Desk

variable (hs : s.Lawful)

/-- The entries are gone through in the order of the list; each keeps its key and gets what the
    closure gives, or goes. -/
structure Revised (l l' : List (κ × ν)) (keep : List (κ × ν) → Option ν) : Prop where
  asked : ∀ (i : Nat) e, l[i]? = some e → hs.contents l' (hs.classOf e.1) = (keep (l.take (i + 1))).map (Prod.mk e.1)
  absent : ∀ c, hs.contents l c = none → hs.contents l' c = none

/-- What an act answers, and what it does to the map, when it takes the list `l` of all entries to `l'`. -/
def Act.Maps (l l' : List (κ × ν)) (r : Result κ ν) : Act κ ν → Prop
  | .key k a =>
    r = a.answer (hs.contents l (hs.classOf k)) ∧
      hs.contents l' = Function.update (hs.contents l) (hs.classOf k) (a.outcome k (hs.contents l (hs.classOf k)))
  | .retain keep => r = .visited l ∧ Revised hs l l' keep
  | .clear => l' = []
  | .rewrite write => Revised hs l l' fun seen => some (write (seen.map (·.2)))
  | .cursor | .clone _ => l' = l
  | .next _ => l' = l ∧ ∀ e, r = .entry (some e) → hs.contents l (hs.classOf e.1) = some e
  | .strike _ =>
    (∃ e, r = .struck e ∧ hs.contents l (hs.classOf e.1) = some e ∧
      hs.contents l' = Function.update (hs.contents l) (hs.classOf e.1) none) ∨
    ((∀ e, r ≠ .struck e) ∧ l' = l)

end Desk

namespace Roll

open Desk (Act KeyAct)

variable {ρ : Roll s ν} {b : Book s ν} (hs : s.Lawful)
include hs

/-- A scan finds what the class holds. -/
theorem scan_eq (hρ : ρ.Sound) (k : κ) : (ρ.scan k).map Line.pair = hs.contents (ρ.lines.map Line.pair) (hs.classOf k) := by
  rw [hs.contents_classOf, List.find?_map, Roll.scan]
  exact congrArg _ (FirstMatch.find?_congr fun p hp => Table.answers_eq_same hs (hρ.hashed p hp) k)

theorem distinct_act (hb : b.roll.Sound) (hd : Distinct s (b.roll.lines.map Line.pair)) (a : Act κ ν) :
    Distinct s ((b.act a).2.roll.lines.map Line.pair) := by
  rcases act_cases b a with ⟨ys, hact⟩ | ⟨k, v, hscan, hact⟩ | ⟨-, hact⟩
  · rw [hact]
    exact Keying.Lawful.distinct_amendAll hd ys
  · have hnone : ((b.roll.lines.map Line.pair).find? fun e => s.same e.1 k) = none := by
      rw [← hs.contents_classOf, ← scan_eq hs hb, hscan]
      rfl
    have hlines : (b.roll.insert k v).lines.map Line.pair = b.roll.lines.map Line.pair ++ [(k, v)] := List.map_append
    rw [hact, hlines]
    refine List.pairwise_append.mpr ⟨hd, List.pairwise_singleton .., fun d hd' e he => ?_⟩
    rw [List.mem_singleton.mp he]
    exact Bool.eq_false_iff.mpr (List.find?_eq_none.mp hnone d hd')
  · rw [hact]
    exact List.Pairwise.nil

theorem distinct_run (hb : b.roll.Sound) (hd : Distinct s (b.roll.lines.map Line.pair)) (as : List (Act κ ν)) :
    Distinct s ((b.run as).2.roll.lines.map Line.pair) := by
  induction as generalizing b with
  | nil => exact hd
  | cons a as ih => exact ih (hb.act a) (distinct_act hs hb hd a)

/-- An act on a key updates the map at the key's class. -/
theorem contents_store (hρ : ρ.Sound) (hd : Distinct s (ρ.lines.map Line.pair)) (k : κ) (a : KeyAct ν) :
    let found := hs.contents (ρ.lines.map Line.pair) (hs.classOf k)
    hs.contents ((ρ.store k (ρ.scan k) (a.outcome k found)).lines.map Line.pair) =
      Function.update (hs.contents (ρ.lines.map Line.pair)) (hs.classOf k) (a.outcome k found) := by
  intro found
  have hfound : found = (ρ.scan k).map Line.pair := (scan_eq hs hρ k).symm
  cases hscan : ρ.scan k with
  | some p =>
    rw [hscan] at hfound
    have hp : p ∈ ρ.lines := List.mem_of_find?_eq_some hscan
    have hkey : hs.classOf p.2.key = hs.classOf k :=
      ((hs.contents_eq_some (c := hs.classOf k) (e := p.pair) hd).mp hfound).2
    have houtcome : ((a.outcome k found).map (·.2)).map (Prod.mk p.2.key) = a.outcome k found := by
      rw [hfound]
      cases a <;> rfl
    show hs.contents ((Line.amend ρ.lines p.1 ((a.outcome k found).map (·.2))).map Line.pair) = _
    rw [hs.contents_amend hd hρ.rising.nodup hp, houtcome, hkey]
  | none =>
    rw [hscan] at hfound
    rw [show found = none from hfound]
    cases ho : a.outcome k none with
    | none => exact (Function.update_eq_self_iff.mpr hfound.symm).symm
    | some e =>
      obtain ⟨j, v⟩ := e
      obtain rfl : j = k := by cases a <;> cases ho <;> rfl
      have hlines : (ρ.insert j v).lines.map Line.pair = ρ.lines.map Line.pair ++ [(j, v)] := List.map_append
      show hs.contents ((ρ.insert j v).lines.map Line.pair) = _
      rw [hlines, hs.contents_concat hfound]

end Roll

/-! ## Tables as finite maps -/

namespace Desk

variable {d : Desk s ν} {b : Book s ν} (hs : s.Lawful)
include hs

/-- The list of all entries and the lines have the same contents. -/
theorem Shows.contents (h : d.Shows b) (hd : Distinct s (b.roll.lines.map Line.pair)) :
    Distinct s d.table.toList ∧ hs.contents d.table.toList = hs.contents (b.roll.lines.map Line.pair) := by
  have hperm : d.table.toList.Perm (b.roll.lines.map Line.pair) := by
    rw [h.table.toList]
    exact (Line.arranged_perm h.sound.pos _).map _
  have hdistinct : Distinct s d.table.toList := by
    refine hperm.symm.pairwise hd fun {x y} hxy => ?_
    exact Bool.eq_false_iff.mpr fun hyx => Bool.eq_false_iff.mp hxy (hs.symm hyx)
  exact ⟨hdistinct, hs.contents_perm hdistinct hd hperm⟩

/-- A closure that goes through all entries revises the map. -/
theorem revised_review (h : d.Shows b) (hd : Distinct s (b.roll.lines.map Line.pair)) {keep : List (κ × ν) → Option ν}
    {d' : Desk s ν} {b' : Book s ν} (h' : d'.Shows b') (hb' : b'.roll = b.roll.review keep) :
    Revised hs d.table.toList d'.table.toList keep := by
  let ys := Line.verdicts keep [] b.roll.listing
  have hys : (ys.map (·.1)).Nodup := by
    rw [Line.numbers_verdicts]
    exact Line.nodup_arranged h.sound.rising h.sound.pos
  have hlines : b'.roll.lines = Line.amendAll b.roll.lines ys := by rw [hb']; rfl
  have hd' : Distinct s (b'.roll.lines.map Line.pair) := by
    rw [hlines]
    exact Keying.Lawful.distinct_amendAll hd ys
  have hcontents' : hs.contents d'.table.toList = hs.contents ((Line.amendAll b.roll.lines ys).map Line.pair) := by
    rw [(h'.contents hs hd').2, hlines]
  constructor
  · intro i e he
    rw [h.table.toList, List.getElem?_map] at he
    obtain ⟨p, hp, rfl⟩ := Option.map_eq_some_iff.mp he
    have hmem : p ∈ b.roll.lines := (Line.arranged_perm h.sound.pos _).mem_iff.mp (List.mem_of_getElem? hp)
    rw [hcontents', h.table.toList]
    exact hs.contents_of_amended hd hys hmem (Line.mem_verdicts hp [])
  · intro c hc
    rw [(h.contents hs hd).2] at hc
    rw [hcontents', hs.contents_of_not_amended hd hys, hc]
    intro p hp hpc
    rw [(hs.contents_eq_some hd).mpr ⟨List.mem_map_of_mem hp, hpc⟩] at hc
    cases hc

theorem maps_act (h : d.Shows b) (hd : Distinct s (b.roll.lines.map Line.pair)) (a : Act κ ν) :
    a.Maps hs d.table.toList (d.act a).2.table.toList (d.act a).1 := by
  obtain ⟨hr, h'⟩ := h.act a
  have hd' := Roll.distinct_act hs h.sound hd a
  obtain ⟨hlist, hcontents⟩ := h.contents hs hd
  have hcontents' := (h'.contents hs hd').2
  have hstays : (b.act a).2.roll = b.roll → (d.act a).2.table.toList = d.table.toList := by
    intro hroll
    rw [h'.table.toList, h.table.toList, hroll]
  cases a with
  | key k a =>
    have hstore := Roll.contents_store hs h.sound hd k a
    have hscan := Roll.scan_eq hs h.sound k
    refine ⟨?_, ?_⟩
    · rw [hr, hcontents, ← hscan]
      rfl
    · rw [hcontents', hcontents, ← hstore, ← hscan]
      rfl
  | retain keep =>
    refine ⟨?_, revised_review hs h hd h' rfl⟩
    rw [hr, h.table.toList]
    rfl
  | clear =>
    show (d.act .clear).2.table.toList = []
    rw [h'.table.toList]
    exact congrArg (List.map Line.pair) (Line.arranged_perm h.sound.pos []).eq_nil
  | rewrite write => exact revised_review hs h hd h' rfl
  | cursor => exact hstays rfl
  | clone c => exact hstays rfl
  | next c =>
    rcases Book.next_cases b c with ⟨-, hact⟩ | ⟨m, -, hact⟩
    · rw [hact] at hr hstays
      refine ⟨hstays rfl, fun e he => ?_⟩
      rw [hr] at he
      cases he
    · rw [hact] at hr hstays
      refine ⟨hstays rfl, fun e he => ?_⟩
      rw [hr] at he
      obtain ⟨p, hp, rfl⟩ := Option.map_eq_some_iff.mp (Result.entry.inj he)
      have hmem : p ∈ b.roll.listing := by
        rw [Book.ahead] at hp
        split at hp
        · exact List.mem_of_getElem? hp
        · cases hp
      refine (hs.contents_eq_some hlist).mpr ⟨?_, rfl⟩
      rw [h.table.toList]
      exact List.mem_map_of_mem hmem
  | strike c =>
    -- An entry goes, or the act is refused and the roll is as before.
    rcases Book.strike_cases b c with ⟨m, p, ⟨-, hstrikes⟩, hact⟩ | ⟨r, hanswer, hact⟩
    · rw [hact] at hr hcontents'
      refine Or.inl ⟨p.pair, hr, ?_, ?_⟩
      · rw [hcontents]
        exact (hs.contents_eq_some hd).mpr ⟨List.mem_map_of_mem hstrikes.mem, rfl⟩
      · rw [hcontents', hcontents]
        exact hs.contents_amend hd h.sound.rising.nodup hstrikes.mem none
    · rw [hact] at hr hstays
      refine Or.inr ⟨fun e he => ?_, hstays rfl⟩
      rw [hr] at he
      rcases hanswer with rfl | ⟨e', rfl⟩
      · cases he
      · cases he

/-- Whatever the run, the table is a finite map, and the next act is an act on that map. -/
theorem finite_map (capacity limit : Nat) (acts : List (Act κ ν)) :
    let d := ((start s ν capacity limit).run acts).2
    Distinct s d.table.toList ∧ d.table.size = d.table.toList.length ∧
      {c | hs.contents d.table.toList c ≠ none}.ncard = d.table.size ∧
      ∀ a : Act κ ν, a.Maps hs d.table.toList (d.act a).2.table.toList (d.act a).1 := by
  have hstart := shows_start s ν capacity limit
  have h := (hstart.run acts).2
  have hd := Roll.distinct_run hs hstart.sound List.Pairwise.nil acts
  have hlist := (h.contents hs hd).1
  have hsize : ((start s ν capacity limit).run acts).2.table.size =
      ((start s ν capacity limit).run acts).2.table.toList.length := by
    rw [h.table.size, h.table.toList, List.length_map]
    exact (Line.arranged_perm h.sound.pos _).length_eq.symm
  exact ⟨hlist, hsize, (hs.ncard_present hlist).trans hsize.symm, fun a => maps_act hs h hd a⟩

omit hs

def remainder (m : Int) : Key → Int ⊕ String
  | .int n => .inl (n.toInt % m)
  | .text s => .inr s

theorem same_residue {m : Int} {j k : Key} : (SameRule.residue m).same j k = true ↔ remainder m j = remainder m k := by
  cases j <;> cases k <;> simp [SameRule.same, remainder]

theorem lawful_residue (n : UInt32) (m : Int) : (Recipe.keying ⟨.const n, .residue m, none⟩).Lawful where
  refl _ := same_residue.mpr rfl
  symm h := same_residue.mpr (same_residue.mp h).symm
  trans h h' := same_residue.mpr ((same_residue.mp h).trans (same_residue.mp h'))
  hash _ := rfl
  absent _ := rfl

theorem finite_map_colliding :
    let s : Keying Key := Recipe.keying ⟨.const 7, .residue 10, none⟩
    let acts : List (Act Key Nat) :=
      [.key (.int 13) (.put 1), .key (.int 8) (.put 2), .key (.int 3) (.put 5), .cursor, .next 0]
    let d := ((start s Nat 1 4).run acts).2
    ∃ hs : s.Lawful,
      (Distinct s d.table.toList ∧ d.table.size = d.table.toList.length ∧
        {c | hs.contents d.table.toList c ≠ none}.ncard = d.table.size ∧
        ∀ a : Act Key Nat, a.Maps hs d.table.toList (d.act a).2.table.toList (d.act a).1) ∧
      d.table.toList = [(.int 13, 5), (.int 8, 2)] ∧
      (d.act (.strike 0)).1 = .struck (.int 13, 5) ∧
      (d.act (.key (.int 23) .removeEntry)).1 = .entry (some (.int 13, 5)) :=
  ⟨lawful_residue 7 10, finite_map (lawful_residue 7 10) 1 4 _, by decide +kernel, by decide +kernel, by decide +kernel⟩

end Desk

end Switchboard
