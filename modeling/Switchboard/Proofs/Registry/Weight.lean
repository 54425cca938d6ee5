/-
  Switchboard.Proofs.Registry.Weight — a number that every release lowers.

  Each entry weighs three and its uses (`Usage.weight`), a ledger what its entries weigh. An edit
  changes the entries by the one it edits, whatever their order (`Edit.entries_perm`), so it
  changes the weight by that one. A release lowers it, by three at least where the entry goes; a
  drain lowers it by as much as it has objects to give back, or more.

  Releasing a pair over and over comes to an end (`Empties`), with what `reclaim` takes back.
-/

import Switchboard.Proofs.Registry.Ledger

namespace Switchboard

variable {α : Type}

def Usage.weight (u : Usage α) : Nat := u.count + 3

namespace Ledger

variable {l l' : Ledger α} {b : BundleId} {id : Nat} {u v : Option (Usage α)}

def weight (l : Ledger α) : Nat := (l.entries.map fun e => e.2.weight).sum

/-! ## Entries without their order -/

theorem mem_entries_iff (hl : l.Sound) {e : BundleId × Usage α} :
    e ∈ l.entries ↔ l.usage? e.1 e.2.reference.id = some e.2 := by
  rw [mem_entries hl]
  exact ⟨usage?_of_mem hl, fun h => (mem_of_usage? h).1⟩

theorem entries_nodup (hl : l.Sound) : l.entries.Nodup :=
  (List.pairwise_map.mp (nodup_entries hl)).imp fun hne heq => hne (by rw [heq])

def isOfPair (b : BundleId) (id : Nat) (e : BundleId × Usage α) : Bool := e.1 == b && e.2.reference.id == id

theorem isOfPair_iff {e : BundleId × Usage α} : isOfPair b id e = true ↔ (e.1, e.2.reference.id) = (b, id) := by
  simp [isOfPair]

/-- The entry of a pair, among all. -/
theorem entries_ofPair (hl : l.Sound) (b : BundleId) (id : Nat) :
    (l.entries.filter (isOfPair b id)).Perm ((l.usage? b id).toList.map (b, ·)) := by
  refine (List.perm_ext_iff_of_nodup ((entries_nodup hl).filter _) ?_).mpr fun e => ?_
  · cases l.usage? b id <;> simp
  · rw [List.mem_filter, isOfPair_iff, mem_entries_iff hl]
    simp only [List.mem_map, Option.mem_toList]
    constructor
    · intro he
      obtain ⟨hentry, hpair⟩ := he
      obtain ⟨hb, hid⟩ := Prod.mk.inj hpair
      rw [hb, hid] at hentry
      exact ⟨e.2, hentry, Prod.ext hb.symm rfl⟩
    · intro he
      obtain ⟨u, hu, rfl⟩ := he
      have hid := (mem_of_usage? hu).2
      exact ⟨by rw [hid]; exact hu, by rw [hid]⟩

/-- An edit takes out one entry and puts in the other. -/
theorem Edit.entries_perm (h : Edit l l' b id u v) (hl : l.Sound) (hl' : l'.Sound) :
    ∃ rest, l.entries.Perm (u.toList.map (b, ·) ++ rest) ∧ l'.entries.Perm (v.toList.map (b, ·) ++ rest) := by
  have hothers : (l'.entries.filter fun e => !isOfPair b id e).Perm (l.entries.filter fun e => !isOfPair b id e) := by
    refine (List.perm_ext_iff_of_nodup ((entries_nodup hl').filter _) ((entries_nodup hl).filter _)).mpr fun e => ?_
    rw [List.mem_filter, List.mem_filter, mem_entries_iff hl, mem_entries_iff hl']
    refine and_congr_left fun he => ?_
    rw [h.usage?_of_ne fun heq => ?_]
    rw [isOfPair_iff.mpr heq] at he
    cases he
  have hthis := entries_ofPair hl b id
  have hthis' := entries_ofPair hl' b id
  rw [h.usage?_before] at hthis
  rw [h.usage?_after] at hthis'
  refine ⟨l.entries.filter fun e => !isOfPair b id e, ?_, ?_⟩
  · exact (List.filter_append_perm _ _).symm.trans (hthis.append_right _)
  · exact (List.filter_append_perm _ _).symm.trans (hthis'.append hothers)

/-- A drain takes out the entries of a registration. -/
theorem entries_drain (hl : l.Sound) (h : Handle) :
    l.entries.Perm (l.usesOf h ++ (l.drain h).ledger.entries) := by
  have hkept : (l.drain h).ledger.entries.Perm (l.entries.filter fun e => !(e.2.reference.target == h)) := by
    refine (List.perm_ext_iff_of_nodup (entries_nodup (sound_drain hl h)) ((entries_nodup hl).filter _)).mpr fun e => ?_
    rw [mem_entries (sound_drain hl h), usages_drain hl, List.mem_filter, List.mem_filter, mem_entries hl]
    rfl
  exact (List.filter_append_perm _ _).symm.trans (hkept.symm.append_left _)

/-! ## Weights -/

/-- An edit changes the weight by what it edits. -/
theorem Edit.weight (h : Edit l l' b id u v) (hl : l.Sound) (hl' : l'.Sound) :
    l'.weight + (u.map Usage.weight).getD 0 = l.weight + (v.map Usage.weight).getD 0 := by
  obtain ⟨rest, hbefore, hafter⟩ := h.entries_perm hl hl'
  have hopt : ∀ o : Option (Usage α), ((o.toList.map (b, ·)).map fun e => e.2.weight).sum = (o.map Usage.weight).getD 0 := by
    intro o
    cases o <;> simp
  rw [Ledger.weight, Ledger.weight, (hafter.map _).sum_eq, (hbefore.map _).sum_eq, List.map_append, List.map_append,
    List.sum_append, List.sum_append, hopt, hopt]
  omega

theorem weight_decremented (hl : l.Sound) {force : Bool} {left : Nat} (h : l.release b id force = (.decremented left, l')) :
    l'.weight < l.weight := by
  obtain ⟨u, -, hcount, -, hl', he⟩ := release_decremented hl h
  have hweight := he.weight hl hl'
  simp only [Option.map_some, Option.getD_some, Usage.weight] at hweight
  omega

theorem weight_flushed (hl : l.Sound) {force : Bool} {cached : Option α} (h : l.release b id force = (.flushed cached, l')) :
    l'.weight + 3 ≤ l.weight := by
  obtain ⟨u, -, -, hl', he⟩ := release_flushed hl h
  have hweight := he.weight hl hl'
  simp only [Option.map_some, Option.getD_some, Option.map_none, Option.getD_none, Usage.weight] at hweight
  omega

/-- Each entry that goes gives back an object at most. -/
theorem length_objects_drain (hl : l.Sound) (h : Handle) : (l.drain h).objects.length ≤ (l.usesOf h).length := by
  have hone : ∀ p, (cachedAt l p).length ≤ 1 := by
    intro p
    rw [cachedAt, List.length_map]
    cases (l.usage? p.1 p.2).bind (·.object) <;> simp
  have hholders : (l.holders h).length = (l.usesOf h).length := by rw [holders_eq, List.length_map]
  rw [(drain_spec hl h).2.1, ← hholders]
  induction l.holders h with
  | nil => simp
  | cons p ps ih =>
    have hp := hone p
    rw [List.flatMap_cons, List.length_append, List.length_cons]
    omega

theorem length_le_weights (es : List (BundleId × Usage α)) : es.length ≤ (es.map fun e => e.2.weight).sum := by
  induction es with
  | nil => simp
  | cons e es ih =>
    rw [List.length_cons, List.map_cons, List.sum_cons, Usage.weight]
    omega

theorem weight_drain (hl : l.Sound) (h : Handle) : (l.drain h).ledger.weight + (l.drain h).objects.length ≤ l.weight := by
  have hobjects := length_objects_drain hl h
  have hlight := length_le_weights (l.usesOf h)
  rw [weight, weight, ((entries_drain hl h).map _).sum_eq, List.map_append, List.sum_append]
  omega

/-! ## Releases without a limit -/

/-- Releasing a pair until its entry is gone ends, and takes back this. -/
inductive Empties (b : BundleId) (id : Nat) : Ledger α → Reclaimed α → Prop
  | notFound {l l' : Ledger α} (h : l.release b id false = (.notFound, l')) : Empties b id l ⟨0, [], l'⟩
  | flushed {l l' : Ledger α} {cached : Option α} (h : l.release b id false = (.flushed cached, l')) :
      Empties b id l ⟨1, cached.toList.map (b, ·), l'⟩
  | decremented {l l' : Ledger α} {left : Nat} {d : Reclaimed α} (h : l.release b id false = (.decremented left, l'))
      (hrest : Empties b id l' d) : Empties b id l { d with uses := d.uses + 1 }

/-- It ends within one release more than the pair has uses. -/
theorem empties_reclaimN (n : Nat) (hl : l.Sound) (hn : ∀ u, l.usage? b id = some u → u.count ≤ n) :
    Empties b id l (reclaimN (n + 1) l b id) := by
  induction n generalizing l with
  | zero =>
    rw [reclaimN]
    split
    · rename_i hrel
      exact .notFound hrel
    · rename_i hrel
      obtain ⟨u, -, hcount, -, -, he⟩ := release_decremented hl hrel
      have hle := hn u he.usage?_before
      omega
    · rename_i hrel
      exact .flushed hrel
  | succ n ih =>
    rw [reclaimN]
    split
    · rename_i hrel
      exact .notFound hrel
    · rename_i hrel
      obtain ⟨u, -, -, -, hl', he⟩ := release_decremented hl hrel
      refine .decremented hrel (ih hl' fun v hv => ?_)
      obtain rfl := Option.some.inj (he.usage?_after.symm.trans hv)
      have hle := hn u he.usage?_before
      show u.count - 1 ≤ n
      omega
    · rename_i hrel
      exact .flushed hrel

theorem empties_reclaim (hl : l.Sound) (b : BundleId) (id : Nat) : Empties b id l (l.reclaim b id) := by
  refine empties_reclaimN _ hl fun u hu => ?_
  simp [count?, hu]

theorem sound_reclaim (hl : l.Sound) (b : BundleId) (id : Nat) : (l.reclaim b id).ledger.Sound := by
  cases hu : l.usage? b id with
  | none =>
    have hrel : l.release b id false = (.notFound, l) := by simp only [release, hu]
    rw [reclaim, reclaimN, hrel]
    exact hl
  | some u => exact (reclaim_spec hl hu).2.2.1

theorem sound_reclaimAll (ps : List (BundleId × Nat)) (d : Reclaimed α) (hd : d.ledger.Sound) :
    (reclaimAll d ps).ledger.Sound := by
  induction ps generalizing d with
  | nil => exact hd
  | cons p ps ih => exact ih _ (sound_reclaim hd p.1 p.2)

/-- So does the release of each pair of a drain, with those before it out of the ledger. -/
theorem empties_drain (hl : l.Sound) (ps : List (BundleId × Nat)) (b : BundleId) (id : Nat) :
    Empties b id (reclaimAll ⟨0, [], l⟩ ps).ledger ((reclaimAll ⟨0, [], l⟩ ps).ledger.reclaim b id) :=
  empties_reclaim (sound_reclaimAll ps ⟨0, [], l⟩ hl) b id

end Ledger

end Switchboard
