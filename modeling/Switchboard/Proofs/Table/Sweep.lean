/-
  Switchboard.Proofs.Table.Sweep — to drop entries through a cursor is to retain the others.

  A cursor that is stepped to its end, and removes as it goes, works on the chain that it walks. It
  comes to the same as a `retain`, which goes through the chains one after the other:
  - the cursor yields every entry once, in the order of the table, and no removal is refused (`Swept`);
  - what it keeps is what a filter keeps of every chain (`swept_of_stands`). The invariant is what the
    filter would leave of the chains: a removal does not change that, and at the end nothing else is left;
  - `retain` asks its closure once about every entry, in the same order, whatever the closure does
    besides, and lets each entry have its answer (`retainM_eq`).

  The two count differently: the cursor every entry that goes, `retain` one change for all of them
  (`sweep_eq_retain`).
-/

import Mathlib.Data.List.Perm.Basic
import Switchboard.Proofs.Table.Desk
import Switchboard.Table.Recipe

namespace Switchboard

/-! ## One member of one chain goes -/

namespace Slot

variable {β : Type} {cs : List (List β)} {p : Slot} {j : Nat} {e : β}

theorem modify_of_occupant (he : occupant cs p = some e) :
    ∃ l, cs[p.bucket]? = some l ∧ l[p.pos]? = some e ∧
      cs.modify p.bucket (·.eraseIdx p.pos) = cs.take p.bucket ++ l.eraseIdx p.pos :: cs.drop (p.bucket + 1) := by
  obtain ⟨c, hc, he⟩ := Option.bind_eq_some_iff.mp he
  obtain ⟨hb, rfl⟩ := List.getElem?_eq_some_iff.mp hc
  exact ⟨_, hc, he, List.modify_eq_take_cons_drop hb⟩

theorem flatten_erase (h : Stands cs p j) (he : occupant cs p = some e) :
    (cs.modify p.bucket (·.eraseIdx p.pos)).flatten = cs.flatten.eraseIdx j := by
  obtain ⟨c, hc, he, hmodify⟩ := modify_of_occupant he
  have hpos : p.pos < c.length := (List.getElem?_eq_some_iff.mp he).1
  rw [hmodify, List.flatten_append, List.flatten_cons, flatten_split hc, h.place,
    List.eraseIdx_append_of_length_le (Nat.le_add_right ..), Nat.add_sub_cancel_left,
    List.eraseIdx_append_of_lt_length hpos]

/-- What comes after it moves up, and the slot lies behind as many as before. -/
theorem Stands.erase (h : Stands cs p j) (he : occupant cs p = some e) :
    Stands (cs.modify p.bucket (·.eraseIdx p.pos)) p j := by
  obtain ⟨c, hc, he, hmodify⟩ := modify_of_occupant he
  have hb : p.bucket < cs.length := (List.getElem?_eq_some_iff.mp hc).1
  have hpos : p.pos < c.length := (List.getElem?_eq_some_iff.mp he).1
  have htake : (cs.take p.bucket).length = p.bucket := by
    rw [List.length_take]
    omega
  refine ⟨by rw [List.length_modify]; exact h.bucket, ?_, ?_⟩
  · rw [List.getElem?_modify_eq, hc]
    show p.pos ≤ (c.eraseIdx p.pos).length
    rw [List.length_eraseIdx_of_lt hpos]
    omega
  · rw [hmodify, List.take_left' htake]
    exact h.place

/-- A filter that drops it does not miss it. -/
theorem map_filter_erase (he : occupant cs p = some e) {q : β → Bool} (hq : q e = false) :
    (cs.modify p.bucket (·.eraseIdx p.pos)).map (·.filter q) = cs.map (·.filter q) := by
  obtain ⟨c, hc, he, hmodify⟩ := modify_of_occupant he
  obtain ⟨hb, rfl⟩ := List.getElem?_eq_some_iff.mp hc
  obtain ⟨hpos, rfl⟩ := List.getElem?_eq_some_iff.mp he
  have hchain : (cs[p.bucket].eraseIdx p.pos).filter q = cs[p.bucket].filter q := by
    conv_rhs => rw [← List.take_append_drop p.pos cs[p.bucket], List.drop_eq_getElem_cons hpos]
    rw [List.eraseIdx_eq_take_drop_succ, List.filter_append, List.filter_append, List.filter_cons_of_neg (by simp [hq])]
  conv_rhs => rw [← List.take_append_drop p.bucket cs, List.drop_eq_getElem_cons hb]
  rw [hmodify, List.map_append, List.map_append, List.map_cons, List.map_cons, hchain]

end Slot

variable {κ ν : Type} {s : Keying κ}

/-! ## A cursor to its end -/

namespace Cursor

open Slot

/-- A cursor is stepped until it yields nothing, and removes every entry that `drop` picks; it yields the
    entries listed, and removes them when it is told. The last two are the cursor and the table then. -/
inductive Swept (drop : κ → ν → Bool) : Cursor → Table s ν → List (κ × ν) → Cursor → Table s ν → Prop
  | stops {c c' : Cursor} {t : Table s ν} : c.next t = (none, c') → Swept drop c t [] c' t
  | passes {c c' c₁ : Cursor} {t t₁ : Table s ν} {e : κ × ν} {es : List (κ × ν)} :
      c.next t = (some e, c') → drop e.1 e.2 = false → Swept drop c' t es c₁ t₁ → Swept drop c t (e :: es) c₁ t₁
  | removes {c c' c'' c₁ : Cursor} {t t' t₁ : Table s ν} {e : κ × ν} {es : List (κ × ν)} :
      c.next t = (some e, c') → drop e.1 e.2 = true → c'.remove t = .ok (e, c'', t') → Swept drop c'' t' es c₁ t₁ →
        Swept drop c t (e :: es) c₁ t₁

variable {drop : κ → ν → Bool} {t t₁ : Table s ν} {c c₁ : Cursor}

/-- With a step for each entry and one for the end. -/
theorem Swept.sweepN_eq {es : List (κ × ν)} (h : Swept drop c t es c₁ t₁) {n : Nat} (hn : es.length < n) :
    sweepN drop n c t = (es, c₁, t₁) := by
  induction h generalizing n with
  | stops hnext =>
    obtain ⟨n, rfl⟩ := Nat.exists_eq_add_one_of_ne_zero (Nat.ne_of_gt hn)
    rw [sweepN, hnext]
  | passes hnext hdrop _ ih =>
    obtain ⟨n, rfl⟩ := Nat.exists_eq_add_one_of_ne_zero (Nat.ne_zero_of_lt hn)
    rw [sweepN, hnext]
    simp only [hdrop, Bool.false_eq_true, if_false]
    rw [ih (Nat.lt_of_succ_lt_succ hn)]
  | removes hnext hdrop hremove _ ih =>
    obtain ⟨n, rfl⟩ := Nat.exists_eq_add_one_of_ne_zero (Nat.ne_zero_of_lt hn)
    rw [sweepN, hnext]
    simp only [hdrop, if_true, hremove]
    rw [ih (Nat.lt_of_succ_lt_succ hn)]

/-- A valid cursor yields the entry in its place in the listing. -/
theorem next_of_stands {j : Nat} (hvalid : c.expected = t.changes) (h : Stands t.buckets.toList c.start j) :
    ∃ q, Stands t.buckets.toList q j ∧ t.entry? q = t.entries[j]? ∧ c.next t = match t.entries[j]? with
      | some e => (some (e.key, e.value), { c with start := ⟨q.bucket, q.pos + 1⟩, current := some q })
      | none => (none, { c with start := q, current := none }) := by
  obtain ⟨q, hseek, hq, hocc⟩ := h.seek
  refine ⟨q, hq, (t.entry?_eq_occupant q).trans hocc, ?_⟩
  have hfresh : ¬ c.isStale t = true := by simp [isStale, hvalid]
  rw [next, if_neg hfresh, hseek, Table.entries]
  cases t.buckets.toList.flatten[j]? <;> rfl

theorem remove_of_current {q : Slot} {e : Entry κ ν} (hvalid : c.expected = t.changes) (hcurrent : c.current = some q)
    (he : t.entry? q = some e) : c.remove t =
      .ok ((e.key, e.value), ⟨t.changes + 1, { c.start with pos := q.pos }, none⟩, t.removeAt q) := by
  have hfresh : ¬ c.isStale t = true := by simp [isStale, hvalid]
  rw [remove, if_neg hfresh, hcurrent, Option.bind_some, he]
  rfl

end Cursor

namespace Table

open Slot Cursor

def without (t : Table s ν) (drop : κ → ν → Bool) : Table s ν :=
  { t with buckets := t.buckets.map (·.filter fun e => !drop e.key e.value),
           size := t.size - t.entries.countP fun e => drop e.key e.value,
           changes := t.changes + t.entries.countP fun e => drop e.key e.value }

variable {drop : κ → ν → Bool} {t : Table s ν}

theorem entries_without (t : Table s ν) (drop : κ → ν → Bool) :
    (t.without drop).entries = t.entries.filter fun e => !drop e.key e.value := by
  rw [Table.entries, without, Array.toList_map, Table.entries, List.filter_flatten]

theorem without_of_kept (h : ∀ e ∈ t.entries, drop e.key e.value = false) : t.without drop = t := by
  have hcount : t.entries.countP (fun e => drop e.key e.value) = 0 :=
    List.countP_eq_zero.mpr fun e he => by simp [h e he]
  have hbuckets : t.buckets.map (·.filter fun e => !drop e.key e.value) = t.buckets := by
    apply Array.toList_inj.mp
    rw [Array.toList_map]
    conv_rhs => rw [← List.map_id t.buckets.toList]
    refine List.map_congr_left fun c hc => List.filter_eq_self.mpr fun e he => ?_
    rw [h e (List.mem_flatten.mpr ⟨c, hc, he⟩)]
    rfl
  rw [without, hcount, hbuckets]
  rfl

theorem entries_removeAt {q : Slot} {e : Entry κ ν} {j : Nat} (hq : Stands t.buckets.toList q j)
    (he : occupant t.buckets.toList q = some e) : (t.removeAt q).entries = t.entries.eraseIdx j := by
  rw [Table.entries, removeAt, Array.toList_modify]
  exact flatten_erase hq he

/-- An entry that is to go may as well go first. -/
theorem without_removeAt {q : Slot} {e : Entry κ ν} {j : Nat} (hq : Stands t.buckets.toList q j)
    (he : occupant t.buckets.toList q = some e) (hdrop : drop e.key e.value = true) :
    (t.removeAt q).without drop = t.without drop := by
  have hcount : t.entries.countP (fun e => drop e.key e.value) =
      (t.removeAt q).entries.countP (fun e => drop e.key e.value) + 1 := by
    obtain ⟨hj, hget⟩ := List.getElem?_eq_some_iff.mp (hq.next he)
    have hperm : (e :: t.entries.eraseIdx j).Perm t.entries := hget ▸ List.getElem_cons_eraseIdx_perm hj
    rw [entries_removeAt hq he, ← hperm.countP_eq]
    exact List.countP_cons_of_pos hdrop
  have hbuckets : (t.removeAt q).buckets.map (·.filter fun e => !drop e.key e.value) =
      t.buckets.map (·.filter fun e => !drop e.key e.value) := by
    apply Array.toList_inj.mp
    rw [Array.toList_map, Array.toList_map, removeAt, Array.toList_modify]
    exact map_filter_erase he (by rw [hdrop]; rfl)
  rw [without, without, hcount, hbuckets]
  show (⟨_, t.size - 1 - _, t.limit, t.changes + 1 + _⟩ : Table s ν) = ⟨_, _, t.limit, _⟩
  rw [Nat.sub_sub, Nat.add_assoc, Nat.add_comm 1]

/-- Behind what it kept, the cursor goes through the rest. -/
theorem swept_of_stands {c : Cursor} {kept rest : List (Entry κ ν)} (hlist : t.entries = kept ++ rest)
    (hkept : ∀ e ∈ kept, drop e.key e.value = false) (hvalid : c.expected = t.changes)
    (hc : Stands t.buckets.toList c.start kept.length) :
    ∃ c', Swept drop c t (rest.map fun e => (e.key, e.value)) c' (t.without drop) := by
  -- The induction is on the entries ahead: each is passed and kept, or goes and leaves the cursor where it stood.
  induction rest generalizing t c kept with
  | nil =>
    obtain ⟨q, -, -, hnext⟩ := next_of_stands hvalid hc
    have hnone : t.entries[kept.length]? = none := by
      rw [hlist, List.append_nil]
      exact List.getElem?_eq_none (Nat.le_refl _)
    rw [hnone] at hnext
    rw [without_of_kept (by rw [hlist, List.append_nil]; exact hkept)]
    exact ⟨_, .stops hnext⟩
  | cons e rest ih =>
    obtain ⟨q, hq, hentry, hnext⟩ := next_of_stands hvalid hc
    have hget : t.entries[kept.length]? = some e := by
      rw [hlist, List.getElem?_append_right (Nat.le_refl _), Nat.sub_self]
      rfl
    rw [hget] at hentry hnext
    have hocc : occupant t.buckets.toList q = some e := (t.entry?_eq_occupant q).symm.trans hentry
    cases hdrop : drop e.key e.value with
    | false =>
      have hlist' : t.entries = (kept ++ [e]) ++ rest := by rw [hlist, List.append_assoc]; rfl
      have hkept' : ∀ d ∈ kept ++ [e], drop d.key d.value = false := by
        intro d hd
        rcases List.mem_append.mp hd with hd | hd
        · exact hkept d hd
        · rw [List.mem_singleton.mp hd, hdrop]
      have hstands : Stands t.buckets.toList ⟨q.bucket, q.pos + 1⟩ (kept ++ [e]).length := by
        rw [List.length_append]
        exact hq.step hocc
      obtain ⟨c', hswept⟩ := ih (c := ⟨c.expected, ⟨q.bucket, q.pos + 1⟩, some q⟩) hlist' hkept' hvalid hstands
      exact ⟨c', .passes hnext hdrop hswept⟩
    | true =>
      have hremove := remove_of_current (c := ⟨c.expected, ⟨q.bucket, q.pos + 1⟩, some q⟩) hvalid rfl hentry
      have hlist' : (t.removeAt q).entries = kept ++ rest := by
        rw [entries_removeAt hq hocc, hlist, List.eraseIdx_append_of_length_le (Nat.le_refl _), Nat.sub_self]
        rfl
      have hstands : Stands (t.removeAt q).buckets.toList q kept.length := by
        rw [removeAt, Array.toList_modify]
        exact hq.erase hocc
      obtain ⟨c', hswept⟩ := ih (c := ⟨t.changes + 1, q, none⟩) hlist' hkept rfl hstands
      rw [without_removeAt hq hocc hdrop] at hswept
      exact ⟨c', .removes hnext hdrop hremove hswept⟩

/-! ## What a closure keeps -/

/-- What is left of entries that got these answers in turn: none drops the entry, a value stays in it. -/
def settle (es : List (Entry κ ν)) (answers : List (Option ν)) : List (Entry κ ν) :=
  (es.zip answers).filterMap fun x => x.2.map fun v => { x.1 with value := v }

def settleAll : List (List (Entry κ ν)) → List (Option ν) → List (List (Entry κ ν))
  | [], _ => []
  | c :: cs, answers => settle c (answers.take c.length) :: settleAll cs (answers.drop c.length)

/-- The table after its entries, in its own order, got these answers. That any went is one change. -/
def settled (t : Table s ν) (answers : List (Option ν)) : Table s ν :=
  let chains := settleAll t.buckets.toList answers
  { t with buckets := chains.toArray, size := chains.flatten.length,
           changes := if chains.flatten.length = t.size then t.changes else t.changes + 1 }

theorem settle_cons (e : Entry κ ν) (es : List (Entry κ ν)) (a : Option ν) (as : List (Option ν)) :
    settle (e :: es) (a :: as) = (a.map fun v => { e with value := v }).toList ++ settle es as := by
  cases a <;> rfl

/-- Whoever is in a chain of his own gets the same answer. -/
theorem flatten_settleAll (cs : List (List (Entry κ ν))) (answers : List (Option ν)) :
    (settleAll cs answers).flatten = settle cs.flatten answers := by
  induction cs generalizing answers with
  | nil => rfl
  | cons c cs ih =>
    rw [settleAll, List.flatten_cons, List.flatten_cons, ih]
    induction c generalizing answers with
    | nil => rfl
    | cons e c ihc =>
      cases answers with
      | nil => simp [settle]
      | cons a as =>
        have hrest := ihc as
        rw [List.length_cons, List.take_succ_cons, List.drop_succ_cons, List.cons_append, settle_cons, settle_cons,
          List.append_assoc, hrest]

section Retain

variable {m : Type → Type} [Monad m] [LawfulMonad m] (keep : κ → ν → m (Option ν))

/-- The chain is asked first, and what comes then has the remaining answers. -/
theorem retainChainM_bind {γ : Type} (c d : List (Entry κ ν)) (k : List (Entry κ ν) → List (Option ν) → m γ) :
    (retainChainM keep c >>= fun c' => (d.mapM fun e => keep e.key e.value) >>= k c') =
      ((c ++ d).mapM fun e => keep e.key e.value) >>= fun answers =>
        k (settle c (answers.take c.length)) (answers.drop c.length) := by
  induction c generalizing k with
  | nil => rw [retainChainM, pure_bind]; rfl
  | cons e c ih =>
    rw [retainChainM, List.cons_append, List.mapM_cons, bind_assoc, bind_assoc]
    refine bind_congr fun a => ?_
    simp only [bind_assoc, pure_bind]
    cases a with
    | none => exact ih k
    | some v => exact ih fun c' => k ({ e with value := v } :: c')

theorem mapM_retainChainM (cs : List (List (Entry κ ν))) : cs.mapM (retainChainM keep) =
    (cs.flatten.mapM fun e => keep e.key e.value) >>= fun answers => pure (settleAll cs answers) := by
  induction cs with
  | nil => rw [List.mapM_nil, List.flatten_nil, List.mapM_nil, pure_bind]; rfl
  | cons c cs ih =>
    rw [List.mapM_cons, ih, List.flatten_cons]
    simp only [bind_assoc, pure_bind]
    exact retainChainM_bind keep c cs.flatten fun c' answers => pure (c' :: settleAll cs answers)

/-- The closure is asked of every entry once, in the order of the table, and that is all it is asked. -/
theorem retainM_eq (t : Table s ν) :
    t.retainM keep = (t.toList.mapM fun e => keep e.1 e.2) >>= fun answers => pure (t.settled answers) := by
  rw [retainM, mapM_retainChainM, bind_assoc, toList, List.mapM_map]
  refine bind_congr fun answers => ?_
  rw [pure_bind]
  rfl

end Retain

theorem settle_map (f : κ → ν → Option ν) (es : List (Entry κ ν)) :
    settle es (es.map fun e => f e.key e.value) =
      es.filterMap fun e => (f e.key e.value).map fun v => { e with value := v } := by
  induction es with
  | nil => rfl
  | cons e es ih =>
    rw [List.map_cons, settle_cons, ih, List.filterMap_cons]
    cases f e.key e.value <;> rfl

theorem settleAll_map (f : κ → ν → Option ν) (cs : List (List (Entry κ ν))) :
    settleAll cs (cs.flatten.map fun e => f e.key e.value) =
      cs.map (·.filterMap fun e => (f e.key e.value).map fun v => { e with value := v }) := by
  induction cs with
  | nil => rfl
  | cons c cs ih =>
    have hlength : (c.map fun e => f e.key e.value).length = c.length := List.length_map _
    rw [settleAll, List.flatten_cons, List.map_append, List.take_left' hlength, List.drop_left' hlength, ih, settle_map,
      List.map_cons]

theorem retain_eq (t : Table s ν) (f : κ → ν → Option ν) :
    t.retain f = t.settled (t.toList.map fun e => f e.1 e.2) := by
  rw [retain, retainM_eq, Id.run_bind, List.idRun_mapM]
  rfl

/-- A closure that keeps values keeps what a filter keeps. -/
theorem filterMap_unless (drop : κ → ν → Bool) (es : List (Entry κ ν)) :
    (es.filterMap fun e => (if drop e.key e.value then none else some e.value).map fun v => { e with value := v }) =
      es.filter fun e => !drop e.key e.value := by
  rw [← List.filterMap_eq_filter]
  refine List.filterMap_congr fun e _ => ?_
  cases hdrop : drop e.key e.value <;> simp [Option.guard, hdrop]

/-- Where the size is right, `retain` leaves the table without what it drops, and counts one change if that is
    anything. -/
theorem retain_eq_without (hsize : t.size = t.entries.length) (drop : κ → ν → Bool) :
    t.retain (fun k v => if drop k v then none else some v) =
      { t.without drop with
        changes := if (t.entries.countP fun e => drop e.key e.value) = 0 then t.changes else t.changes + 1 } := by
  have hchains : settleAll t.buckets.toList (t.toList.map fun e => if drop e.1 e.2 then none else some e.2) =
      (t.without drop).buckets.toList := by
    rw [toList, List.map_map, without, Array.toList_map]
    refine (settleAll_map (fun k v => if drop k v then none else some v) t.buckets.toList).trans ?_
    exact List.map_congr_left fun c _ => filterMap_unless drop c
  have hlength : (t.without drop).entries.length + t.entries.countP (fun e => drop e.key e.value) = t.size := by
    rw [entries_without, hsize, List.countP_eq_length_filter, Nat.add_comm, ← List.length_append]
    exact (List.filter_append_perm (fun e => drop e.key e.value) t.entries).length_eq
  have hleft : (t.without drop).entries.length = (t.without drop).size := Nat.eq_sub_of_add_eq hlength
  have hstill : (t.without drop).size = t.size ↔ (t.entries.countP fun e => drop e.key e.value) = 0 := by omega
  rw [retain_eq, settled, hchains]
  show (⟨(t.without drop).buckets.toList.toArray, (t.without drop).entries.length, t.limit,
    if (t.without drop).entries.length = t.size then _ else _⟩ : Table s ν) = _
  rw [hleft, Array.toArray_toList, if_congr hstill rfl rfl]
  rfl

theorem Shows.size_eq {ρ : Roll s ν} (h : t.Shows ρ) : t.size = t.entries.length :=
  h.lays.size.trans h.lays.entries_perm.length_eq.symm

end Table

namespace Desk

open Table Cursor

/-- A cursor that removes what `drop` picks, and a `retain` of the rest. -/
theorem sweep_eq_retain (s : Keying κ) (ν : Type) (capacity limit : Nat) (acts : List (Act κ ν)) (drop : κ → ν → Bool)
    {m : Type → Type} [Monad m] [LawfulMonad m] (keep : κ → ν → m (Option ν)) :
    let t := ((start s ν capacity limit).run acts).2.table
    let swept := t.cursor.sweep t drop
    let kept := t.retain fun k v => if drop k v then none else some v
    let gone := t.toList.countP fun e => drop e.1 e.2
    (Swept drop t.cursor t swept.1 swept.2.1 swept.2.2 ∧ swept.1 = t.toList) ∧
      swept.2.2 = { kept with changes := t.changes + gone } ∧
      kept.changes = (if gone = 0 then t.changes else t.changes + 1) ∧
      kept.buckets = t.buckets.map (·.filter fun e => !drop e.key e.value) ∧
      t.retainM keep = (t.toList.mapM fun e => keep e.1 e.2) >>= (fun answers => pure (t.settled answers)) ∧
      ∀ answers, (t.settled answers).entries = settle t.entries answers := by
  intro t swept kept gone
  have hsize : t.size = t.entries.length := ((shows_start s ν capacity limit).run acts).2.table.size_eq
  have hgone : gone = t.entries.countP fun e => drop e.key e.value := List.countP_map ..
  obtain ⟨c, hswept⟩ : ∃ c, Swept drop t.cursor t t.toList c (t.without drop) :=
    swept_of_stands (List.nil_append t.entries).symm (fun _ he => nomatch he) rfl (Slot.stands_zero _)
  have hsweep : swept = (t.toList, c, t.without drop) :=
    hswept.sweepN_eq (by rw [toList, List.length_map]; exact Nat.lt_succ_self _)
  have hkept : kept = _ := retain_eq_without hsize drop
  rw [hsweep, hkept, hgone]
  exact ⟨⟨hswept, rfl⟩, rfl, rfl, rfl, retainM_eq keep t, flatten_settleAll t.buckets.toList⟩

/-- Two entries go at the end of a chain and one in the next; a closure that counts keeps the first two, raised. -/
theorem sweep_eq_retain_counted :
    let s : Keying Key := Recipe.keying ⟨.residue 2, .exact, none⟩
    let acts : List (Act Key Nat) := [.key (.int 2) (.put 21), .key (.int 1) (.put 10), .key (.int 4) (.put 40),
      .key (.int 6) (.put 60), .key (.int 3) (.put 31)]
    let drop : Key → Nat → Bool := fun _ v => v % 10 == 0
    let keep : Key → Nat → StateM Nat (Option Nat) := fun _ v n => (if n < 2 then some (v + n) else none, n + 1)
    let t := ((start s Nat 2 2).run acts).2.table
    let swept := t.cursor.sweep t drop
    LawfulMonad (StateM Nat) ∧ Swept drop t.cursor t swept.1 swept.2.1 swept.2.2 ∧
      t.retainM keep = (t.toList.mapM fun e => keep e.1 e.2) >>= (fun answers => pure (t.settled answers)) ∧
      swept.1 = [(.int 2, 21), (.int 4, 40), (.int 6, 60), (.int 1, 10), (.int 3, 31)] ∧
      swept.2.2.toList = [(.int 2, 21), (.int 3, 31)] ∧ swept.2.2.changes = t.changes + 3 ∧
      ((t.retainM keep) 0).2 = 5 ∧ ((t.retainM keep) 0).1.toList = [(.int 2, 21), (.int 4, 41)] := by
  intro s acts drop keep
  have hswept := sweep_eq_retain s Nat 2 2 acts drop keep
  exact ⟨inferInstance, hswept.1.1, hswept.2.2.2.2.1, by decide +kernel, by decide +kernel, by decide +kernel,
    by decide +kernel, by decide +kernel⟩

end Desk

end Switchboard
