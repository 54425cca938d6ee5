/-
  Switchboard.Proofs.Registry.Account — a ledger is a finite map.

  The accounts of a ledger (`Accounts`) are a finite map that gives a pair of a bundle and a reference id its
  uses and the object cached for it, and the pairs in the order they were opened, each with the reference that
  opened it. What an operation does to accounts (`Accounts.act`) is said pair by pair: there is no table, no slot
  and no list of entries.

  A ledger keeps its accounts through every operation and answers as they do (`Keeps.act`), so it does through a
  run (`Keeps.run`). What it is asked then reads them, one way or another (`refines_accounts`).
-/

import Mathlib.Data.Finmap
import Switchboard.Proofs.Registry.Ledger

namespace Switchboard

variable {α : Type}

namespace Ledger

/-! ## Operations and accounts -/

inductive Act (α : Type) where
  | acquire (b : BundleId) (r : Reference)
  | store (b : BundleId) (id : Nat) (o : α)
  | release (b : BundleId) (id : Nat) (force : Bool)
  | flush (b : BundleId) (id : Nat)

def Act.pair : Act α → BundleId × Nat
  | acquire b r => (b, r.id)
  | store b id _ | release b id _ | flush b id => (b, id)

inductive Answer (α : Type) where
  | cached (o : Option α)
  | stored (s : Stored α)
  | released (r : Released α)
  | done

def act (l : Ledger α) : Act α → Answer α × Ledger α
  | .acquire b r => (.cached (l.acquire b r).1, (l.acquire b r).2)
  | .store b id o => (.stored (l.store b id o).1, (l.store b id o).2)
  | .release b id force => (.released (l.release b id force).1, (l.release b id force).2)
  | .flush b id => (.done, l.flush b id)

def run (l : Ledger α) : List (Act α) → List (Answer α) × Ledger α
  | [] => ([], l)
  | a :: as => ((l.act a).1 :: ((l.act a).2.run as).1, ((l.act a).2.run as).2)

end Ledger

open Ledger (Act Answer countLimit)

structure Accounts (α : Type) where
  /-- A pair's uses, and the object cached for it. -/
  uses : Finmap fun _ : BundleId × Nat => Nat × Option α
  /-- The pairs with an account, oldest first, each with the reference that opened it. -/
  opened : List (BundleId × Reference)

namespace Accounts

def empty : Accounts α := ⟨∅, []⟩

def enter (m : Accounts α) (b : BundleId) (r : Reference) : Accounts α :=
  ⟨m.uses.insert (b, r.id) (1, none), m.opened ++ [(b, r)]⟩

/-- A pair that has an account has so many uses now, and this object. -/
def put (m : Accounts α) (p : BundleId × Nat) (account : Nat × Option α) : Accounts α :=
  { m with uses := m.uses.insert p account }

def close (m : Accounts α) (p : BundleId × Nat) : Accounts α :=
  ⟨m.uses.erase p, m.opened.filter fun e => (e.1, e.2.id) != p⟩

def act (m : Accounts α) : Act α → Answer α × Accounts α
  | .acquire b r =>
    match m.uses.lookup (b, r.id) with
    | none => (.cached none, m.enter b r)
    | some (n, o) => (.cached o, m.put (b, r.id) (min (n + 1) countLimit, o))
  | .store b id o =>
    match m.uses.lookup (b, id) with
    | none => (.stored .missing, m)
    | some (_, some cached) => (.stored (.existing cached), m)
    | some (n, none) => (.stored .kept, m.put (b, id) (n, some o))
  | .release b id force =>
    match m.uses.lookup (b, id) with
    | none => (.released .notFound, m)
    | some (n, o) =>
      if force = true ∨ n - 1 = 0 then (.released (.flushed o), m.close (b, id))
      else (.released (.decremented (n - 1)), m.put (b, id) (n - 1, o))
  | .flush b id => (.done, m.close (b, id))

def run (m : Accounts α) : List (Act α) → List (Answer α) × Accounts α
  | [] => ([], m)
  | a :: as => ((m.act a).1 :: ((m.act a).2.run as).1, ((m.act a).2.run as).2)

def openedBy (m : Accounts α) (b : BundleId) : List Reference := (m.opened.filter (·.1 == b)).map (·.2)

theorem mem_openedBy {m : Accounts α} {b : BundleId} {r : Reference} : r ∈ m.openedBy b ↔ (b, r) ∈ m.opened := by
  simp [openedBy]

theorem openedBy_enter (m : Accounts α) (b : BundleId) (r : Reference) (c : BundleId) :
    (m.enter b r).openedBy c = if c = b then m.openedBy b ++ [r] else m.openedBy c := by
  have happend : (m.enter b r).openedBy c = m.openedBy c ++ ([(b, r)].filter (·.1 == c)).map (·.2) := by
    rw [openedBy, openedBy, enter, List.filter_append, List.map_append]
  rw [happend]
  by_cases hc : c = b
  · simp [hc]
  · simp [hc, Ne.symm hc]

theorem openedBy_close (m : Accounts α) (b : BundleId) (id : Nat) (c : BundleId) :
    (m.close (b, id)).openedBy c = if c = b then (m.openedBy b).filter (·.id != id) else m.openedBy c := by
  -- Which account goes is told by its pair, and in the list of one bundle by the id alone.
  have hfilter : (m.close (b, id)).openedBy c =
      (m.openedBy c).filter fun r => !((c, r.id) == (b, id)) := by
    rw [openedBy, openedBy, close, List.filter_map, List.filter_filter, List.filter_filter]
    refine congrArg (List.map _) (List.filter_congr fun e _ => ?_)
    by_cases he : e.1 = c
    · simp [he, bne]
    · have hno : (e.1 == c) = false := beq_eq_false_iff_ne.mpr he
      simp [hno]
  rw [hfilter]
  by_cases hc : c = b
  · subst hc
    rw [if_pos rfl]
    exact List.filter_congr fun r _ => by simp [bne]
  · rw [if_neg hc, List.filter_eq_self.mpr fun r _ => by simp [hc]]

end Accounts

def Usage.account (u : Usage α) : Nat × Option α := (u.count, u.object)

namespace Ledger

variable {l l' : Ledger α} {m : Accounts α} {b : BundleId} {id : Nat}

/-! ## What an edit leaves -/

theorem references_eq (l : Ledger α) (b : BundleId) : l.references b = (l.usages b).map (·.reference) := rfl

/-- An entry that is replaced keeps its place among the references. -/
theorem Edit.references_replaced {u v : Usage α} (h : Edit l l' b id (some u) (some v)) (hv : v.reference = u.reference)
    (c : BundleId) : l'.references c = l.references c := by
  by_cases hc : c = b
  · subst hc
    obtain ⟨pre, post, hl, hl', -⟩ := h.here
    rw [references_eq, references_eq, hl, hl']
    simp [hv]
  · rw [references_eq, references_eq, h.others c hc]

/-- One that goes leaves the others in their order. -/
theorem Edit.references_removed {u : Option (Usage α)} (h : Edit l l' b id u none) (c : BundleId) :
    l'.references c = if c = b then (l.references b).filter (·.id != id) else l.references c := by
  by_cases hc : c = b
  · subst hc
    obtain ⟨pre, post, hl, hl', hne⟩ := h.here
    rw [if_pos rfl, references_eq, references_eq, hl, hl', List.filter_map]
    refine congrArg (List.map _) (Eq.trans ?_ (filter_split h.before hne).symm)
    simp
  · rw [if_neg hc, references_eq, references_eq, h.others c hc]

/-- A new entry comes last. -/
theorem references_acquire (hl : l.Sound) {r : Reference} (hu : l.usage? b r.id = none) (c : BundleId) :
    (l.acquire b r).2.references c = if c = b then l.references b ++ [r] else l.references c := by
  have hany : (l.usages b).any (·.reference.id == r.id) = false := by
    simpa using ne_of_usage?_eq_none hu
  by_cases hc : c = b
  · subst hc
    rw [if_pos rfl, references_eq, references_eq, usages_acquire hl, if_pos rfl]
    simp [addUse, hany]
  · rw [if_neg hc, references_eq, references_eq, usages_acquire hl, if_neg hc]

/-! ## A ledger keeps its accounts -/

/-- The ledger has an entry for each account and no other, and lists a bundle's entries as they were opened. -/
structure Keeps (l : Ledger α) (m : Accounts α) : Prop where
  sound : l.Sound
  uses : ∀ b id, m.uses.lookup (b, id) = (l.usage? b id).map Usage.account
  references : ∀ b, l.references b = m.openedBy b
  counts : ∀ {b id u}, l.usage? b id = some u → 1 ≤ u.count ∧ u.count ≤ countLimit

theorem keeps_withCapacity (α : Type) (capacity : Nat) : (withCapacity capacity : Ledger α).Keeps .empty where
  sound := sound_withCapacity α capacity
  uses b id := by
    rw [usage?_eq, usages_withCapacity]
    exact Finmap.lookup_empty _
  references b := by
    rw [references_eq, usages_withCapacity]
    rfl
  counts {b id u} hu := by
    rw [usage?_eq, usages_withCapacity] at hu
    cases hu

namespace Keeps

variable {u : Option (Usage α)} {v : Usage α}

theorem lookup (h : l.Keeps m) {o : Option (Usage α)} (hu : l.usage? b id = o) :
    m.uses.lookup (b, id) = o.map Usage.account := by
  rw [h.uses, hu]

theorem uses_put (h : l.Keeps m) (he : Edit l l' b id u (some v)) (c : BundleId) (j : Nat) :
    (m.uses.insert (b, id) v.account).lookup (c, j) = (l'.usage? c j).map Usage.account := by
  by_cases hp : (c, j) = (b, id)
  · obtain ⟨rfl, rfl⟩ := Prod.mk.inj hp
    rw [Finmap.lookup_insert, he.usage?_after]
    rfl
  · rw [Finmap.lookup_insert_of_ne _ hp, he.usage?_of_ne hp, h.uses]

theorem counts_edit {v : Option (Usage α)} (h : l.Keeps m) (he : Edit l l' b id u v)
    (hv : ∀ w, v = some w → 1 ≤ w.count ∧ w.count ≤ countLimit) {c : BundleId} {j : Nat} {w : Usage α}
    (hw : l'.usage? c j = some w) : 1 ≤ w.count ∧ w.count ≤ countLimit := by
  by_cases hp : (c, j) = (b, id)
  · obtain ⟨rfl, rfl⟩ := Prod.mk.inj hp
    exact hv w (he.usage?_after.symm.trans hw)
  · rw [he.usage?_of_ne hp] at hw
    exact h.counts hw

/-- An entry was replaced by one of the same reference. -/
theorem replace {u : Usage α} (h : l.Keeps m) (he : Edit l l' b id (some u) (some v)) (hl' : l'.Sound)
    (href : v.reference = u.reference) (hv : 1 ≤ v.count ∧ v.count ≤ countLimit) :
    l'.Keeps (m.put (b, id) v.account) where
  sound := hl'
  uses := h.uses_put he
  references c := (he.references_replaced href c).trans (h.references c)
  counts := h.counts_edit he fun _ hw => Option.some.inj hw ▸ hv

/-- An entry was removed, or there was none. -/
theorem close (h : l.Keeps m) (he : Edit l l' b id u none) (hl' : l'.Sound) : l'.Keeps (m.close (b, id)) where
  sound := hl'
  uses c j := by
    show (m.uses.erase (b, id)).lookup (c, j) = _
    by_cases hp : (c, j) = (b, id)
    · obtain ⟨rfl, rfl⟩ := Prod.mk.inj hp
      rw [Finmap.lookup_erase, he.usage?_after]
      rfl
    · rw [Finmap.lookup_erase_ne hp, he.usage?_of_ne hp, h.uses]
  references c := by
    rw [he.references_removed, m.openedBy_close, h.references, h.references]
  counts := h.counts_edit he fun _ hw => by cases hw

theorem acquire (h : l.Keeps m) (b : BundleId) (r : Reference) :
    (l.act (.acquire b r)).1 = (m.act (.acquire b r)).1 ∧ (l.act (.acquire b r)).2.Keeps (m.act (.acquire b r)).2 := by
  have he := edit_acquire h.sound b r
  have hl' := h.sound.acquire b r
  have hcached : (l.acquire b r).1 = (l.usage? b r.id).bind (·.object) := rfl
  cases hu : l.usage? b r.id with
  | none =>
    rw [hu] at he hcached
    simp only [act, Accounts.act, h.lookup hu, Option.map_none, hcached, Option.bind_none, true_and]
    have hfirst : ∀ w : Usage α, some ⟨r, 1, none⟩ = some w → 1 ≤ w.count ∧ w.count ≤ countLimit := by
      intro w hw
      obtain rfl := Option.some.inj hw
      exact ⟨Nat.le_refl 1, by show 1 ≤ countLimit; decide⟩
    refine ⟨hl', h.uses_put he, fun c => ?_, h.counts_edit he hfirst⟩
    rw [references_acquire h.sound hu, m.openedBy_enter, h.references, h.references]
  | some u =>
    rw [hu] at he hcached
    have hcount := h.counts hu
    simp only [act, Accounts.act, h.lookup hu, Option.map_some, Usage.account, hcached, Option.bind_some, true_and]
    exact h.replace he hl' rfl ⟨Nat.le_min.mpr ⟨by omega, by decide⟩, Nat.min_le_right ..⟩

theorem store (h : l.Keeps m) (b : BundleId) (id : Nat) (o : α) :
    (l.act (.store b id o)).1 = (m.act (.store b id o)).1 ∧ (l.act (.store b id o)).2.Keeps (m.act (.store b id o)).2 := by
  rcases store_cases h.sound b id o with ⟨hu, hstore⟩ | ⟨u, cached, hu, ho, hstore⟩ | ⟨u, hu, ho, hkept, hl', he⟩
  · simp only [act, Accounts.act, h.lookup hu, hstore, Option.map_none, true_and]
    exact h
  · simp only [act, Accounts.act, h.lookup hu, hstore, Option.map_some, Usage.account, ho, true_and]
    exact h
  · simp only [act, Accounts.act, h.lookup hu, hkept, Option.map_some, Usage.account, ho, true_and]
    have hcount := h.counts hu
    exact h.replace he hl' rfl hcount

theorem release (h : l.Keeps m) (b : BundleId) (id : Nat) (force : Bool) :
    (l.act (.release b id force)).1 = (m.act (.release b id force)).1 ∧
      (l.act (.release b id force)).2.Keeps (m.act (.release b id force)).2 := by
  rcases release_cases h.sound b id force with
    ⟨hu, hrel⟩ | ⟨u, hu, hforce, hcount, hrel, hl', he⟩ | ⟨u, hu, hgone, hrel, hl', he⟩
  · simp only [act, Accounts.act, h.lookup hu, hrel, Option.map_none, true_and]
    exact h
  · have hstays : ¬ (force = true ∨ u.count - 1 = 0) := by
      simp only [hforce, Bool.false_eq_true, false_or]
      omega
    simp only [act, Accounts.act, h.lookup hu, hrel, Option.map_some, Usage.account, if_neg hstays, true_and]
    have hle := (h.counts hu).2
    have hleft : 1 ≤ u.count - 1 ∧ u.count - 1 ≤ countLimit := ⟨by omega, by omega⟩
    exact h.replace he hl' rfl hleft
  · have hgoes : force = true ∨ u.count - 1 = 0 := hgone.imp_right fun hle => by omega
    simp only [act, Accounts.act, h.lookup hu, hrel, Option.map_some, Usage.account, if_pos hgoes, true_and]
    exact h.close he hl'

theorem flush (h : l.Keeps m) (b : BundleId) (id : Nat) : (l.flush b id).Keeps (m.close (b, id)) :=
  h.close (edit_flush h.sound b id) (h.sound.flush b id)

/-- Every operation answers as the accounts do, and keeps what they become. -/
theorem act (h : l.Keeps m) (a : Act α) : (l.act a).1 = (m.act a).1 ∧ (l.act a).2.Keeps (m.act a).2 := by
  cases a with
  | acquire b r => exact h.acquire b r
  | store b id o => exact h.store b id o
  | release b id force => exact h.release b id force
  | flush b id => exact ⟨rfl, h.flush b id⟩

theorem run (h : l.Keeps m) (as : List (Act α)) : (l.run as).1 = (m.run as).1 ∧ (l.run as).2.Keeps (m.run as).2 := by
  induction as generalizing l m with
  | nil => exact ⟨rfl, h⟩
  | cons a as ih =>
    obtain ⟨hanswer, hkeeps⟩ := h.act a
    obtain ⟨hanswers, hrest⟩ := ih hkeeps
    exact ⟨congrArg₂ List.cons hanswer hanswers, hrest⟩

end Keeps

/-! ## Queries -/

theorem mem_bundles (hl : l.Sound) : b ∈ l.bundles id ↔ (l.usage? b id).isSome := by
  constructor
  · intro hb
    obtain ⟨u, hu, rfl⟩ := exists_of_mem_bundles hl hb
    rw [usage?_of_mem hl hu]
    rfl
  · intro hsome
    obtain ⟨u, hu⟩ := Option.isSome_iff_exists.mp hsome
    obtain ⟨hmem, hid⟩ := mem_of_usage? hu
    have hslot : (b, l.usages b) ∈ l.inUse.toList :=
      (Shelf.mem_toList Keying.bundle_lawful (Keying.same_bundle _ _).mp hl.tidy).mpr ⟨rfl, List.ne_nil_of_mem hmem⟩
    refine List.mem_map.mpr ⟨(b, l.usages b), List.mem_filter.mpr ⟨hslot, ?_⟩, rfl⟩
    exact List.any_eq_true.mpr ⟨u, hmem, beq_iff_eq.mpr hid⟩

theorem nodup_bundles (hl : l.Sound) (id : Nat) : (l.bundles id).Nodup := by
  have hkeys : (l.inUse.toList.map (·.1)).Nodup := by
    rw [Table.toList, List.map_map]
    refine List.pairwise_map.mpr ((hl.tidy.isMap.pairwise_entries Keying.bundle_lawful).imp fun {d e} hde heq => ?_)
    rw [(Keying.same_bundle d.key e.key).mpr heq] at hde
    cases hde
  exact hkeys.sublist (List.filter_sublist.map _)

theorem mem_references (hl : l.Sound) : id ∈ (l.references b).map (·.id) ↔ (l.usage? b id).isSome := by
  rw [references_eq, List.map_map, List.mem_map]
  constructor
  · intro hmem
    obtain ⟨u, hu, rfl⟩ := hmem
    rw [Function.comp_apply, usage?_of_mem hl hu]
    rfl
  · intro hsome
    obtain ⟨u, hu⟩ := Option.isSome_iff_exists.mp hsome
    obtain ⟨hmem, hid⟩ := mem_of_usage? hu
    exact ⟨u, hmem, hid⟩

theorem nodup_references (hl : l.Sound) (b : BundleId) : ((l.references b).map (·.id)).Nodup := by
  rw [references_eq, List.map_map]
  exact List.pairwise_map.mpr (hl.distinct b)

theorem Keeps.mem_holders (h : l.Keeps m) {t : Handle} :
    (b, id) ∈ l.holders t ↔ ∃ r, (b, r) ∈ m.opened ∧ r.target = t ∧ r.id = id := by
  rw [Ledger.mem_holders h.sound]
  have hopened : ∀ r, (b, r) ∈ m.opened ↔ ∃ u ∈ l.usages b, u.reference = r := by
    intro r
    rw [← Accounts.mem_openedBy, ← h.references, references_eq, List.mem_map]
  constructor
  · intro hu
    obtain ⟨u, hmem, ht, hid⟩ := hu
    exact ⟨u.reference, (hopened _).mpr ⟨u, hmem, rfl⟩, ht, hid⟩
  · intro hr
    obtain ⟨r, hmem, ht, hid⟩ := hr
    obtain ⟨u, hu, rfl⟩ := (hopened r).mp hmem
    exact ⟨u, hu, ht, hid⟩

/-- An operation is about one pair. -/
theorem Sound.act_of_ne (hl : l.Sound) {a : Act α} (hne : (b, id) ≠ a.pair) :
    (l.act a).2.usage? b id = l.usage? b id := by
  cases a with
  | acquire c r => exact (edit_acquire hl c r).usage?_of_ne hne
  | store c j o =>
    rcases store_cases hl c j o with ⟨-, hstore⟩ | ⟨u, cached, -, -, hstore⟩ | ⟨u, -, -, -, -, he⟩
    · show (l.store c j o).2.usage? b id = _
      rw [hstore]
    · show (l.store c j o).2.usage? b id = _
      rw [hstore]
    · exact he.usage?_of_ne hne
  | release c j force =>
    rcases release_cases hl c j force with ⟨-, hrel⟩ | ⟨u, -, -, -, -, -, he⟩ | ⟨u, -, -, -, -, he⟩
    · show (l.release c j force).2.usage? b id = _
      rw [hrel]
    · exact he.usage?_of_ne hne
    · exact he.usage?_of_ne hne
  | flush c j => exact (edit_flush hl c j).usage?_of_ne hne

structure Reads (l : Ledger α) (m : Accounts α) : Prop where
  usage : ∀ b id, (l.usage? b id).map (fun u => (u.count, u.object)) = m.uses.lookup (b, id)
  count : ∀ b id, l.count? b id = (m.uses.lookup (b, id)).map (·.1)
  counted : ∀ b id n, l.count? b id = some n → 1 ≤ n ∧ n ≤ countLimit
  bundles : ∀ b id, b ∈ l.bundles id ↔ (l.count? b id).isSome
  nodup_bundles : ∀ id, (l.bundles id).Nodup
  references : ∀ b id, id ∈ (l.references b).map (·.id) ↔ (l.count? b id).isSome
  nodup_references : ∀ b, ((l.references b).map (·.id)).Nodup
  references_opened : ∀ b, l.references b = m.openedBy b
  holders : ∀ b id t, (b, id) ∈ l.holders t ↔ ∃ r, (b, r) ∈ m.opened ∧ r.target = t ∧ r.id = id
  nodup_holders : ∀ t, (l.holders t).Nodup

theorem Keeps.reads (h : l.Keeps m) : l.Reads m where
  usage b id := (h.uses b id).symm
  count b id := by
    rw [h.uses, Option.map_map, count?]
    rfl
  counted b id n hn := by
    obtain ⟨u, hu, rfl⟩ := Option.map_eq_some_iff.mp hn
    exact h.counts hu
  bundles b id := by rw [Ledger.mem_bundles h.sound, count?, Option.isSome_map]
  nodup_bundles := Ledger.nodup_bundles h.sound
  references b id := by rw [mem_references h.sound, count?, Option.isSome_map]
  nodup_references := Ledger.nodup_references h.sound
  references_opened := h.references
  holders b id t := h.mem_holders
  nodup_holders := Ledger.nodup_holders h.sound

/-- After any operations a ledger has answered as the accounts do and reads as they, and the next operation touches no
    pair but its own. -/
theorem refines_accounts (α : Type) (capacity : Nat) (acts : List (Act α)) :
    let l : Ledger α := ((withCapacity capacity).run acts).2
    ((withCapacity capacity : Ledger α).run acts).1 = (Accounts.empty.run acts).1 ∧ l.Reads (Accounts.empty.run acts).2 ∧
      ∀ a b id, (b, id) ≠ a.pair → (l.act a).2.usage? b id = l.usage? b id := by
  intro l
  obtain ⟨hanswers, hkeeps⟩ := (keeps_withCapacity α capacity).run acts
  exact ⟨hanswers, hkeeps.reads, fun a b id hne => hkeeps.sound.act_of_ne hne⟩

/-- Two references share an id: the one that opened the account stays, and counts as the holder. -/
theorem refines_accounts_shared :
    let first : Reference := ⟨7, 1, 100⟩
    let twin : Reference := ⟨7, 2, 200⟩
    let other : Reference := ⟨8, 1, 100⟩
    let acts : List (Act Nat) := [.acquire 1 first, .acquire 1 twin, .store 1 7 50, .acquire 2 twin, .acquire 1 other,
      .acquire 1 twin, .release 1 7 false, .release 2 7 true]
    let l : Ledger Nat := ((withCapacity 0).run acts).2
    let next : Act Nat := .release 1 7 true
    (l.Reads (Accounts.empty.run acts).2 ∧ l.count? 1 7 = some 2 ∧ l.bundles 7 = [1] ∧ l.references 1 = [first, other] ∧
      l.holders 100 = [(1, 7), (1, 8)] ∧ l.holders 200 = []) ∧
    ((1, 8) ≠ next.pair ∧ (l.act next).2.usage? 1 8 = l.usage? 1 8 ∧ l.count? 1 8 = some 1 ∧
      (l.act next).2.count? 1 7 = none) := by
  intro first twin other acts l next
  obtain ⟨-, hreads, hother⟩ := refines_accounts Nat 0 acts
  have hne : (1, 8) ≠ next.pair := by decide
  exact ⟨⟨hreads, by decide +kernel, by decide +kernel, by decide +kernel, by decide +kernel, by decide +kernel⟩,
    hne, hother next 1 8 hne, by decide +kernel, by decide +kernel⟩

end Ledger

end Switchboard
