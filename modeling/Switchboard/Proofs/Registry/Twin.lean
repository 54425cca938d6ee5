/-
  Switchboard.Proofs.Registry.Twin — registries that differ in the layout of their tables.

  Twins list the same under every bundle, but each visits the bundles in an order of its own. So
  what is asked of one bundle has one answer in both, and what goes through a whole table has the
  same answer up to order: the listed registrations (`Registry.Twin.members_perm`), the users of a
  reference (`Ledger.Twin.bundles_perm`) and what a drain takes back (`Ledger.Twin.drain`). Every
  change of both leaves twins.

  The references they handed out are as many, but may be to other registrations.
-/

import Switchboard.Proofs.Registry.State

namespace Switchboard

variable {α : Type}

namespace Ledger

structure Twin (l l' : Ledger α) : Prop where
  sound : l.Sound
  sound' : l'.Sound
  usages : ∀ b, l'.usages b = l.usages b

variable {l l' : Ledger α}

theorem Twin.refl (hl : l.Sound) : l.Twin l := ⟨hl, hl, fun _ => rfl⟩

theorem twin_withCapacity (c c' : Nat) : Twin (withCapacity c : Ledger α) (withCapacity c') where
  sound := sound_withCapacity α c
  sound' := sound_withCapacity α c'
  usages b := by rw [usages_withCapacity, usages_withCapacity]

/-! ## Answers -/

theorem Twin.usage? (ht : l.Twin l') (b : BundleId) (id : Nat) : l'.usage? b id = l.usage? b id := by
  rw [usage?_eq, usage?_eq, ht.usages]

theorem Twin.count? (ht : l.Twin l') (b : BundleId) (id : Nat) : l'.count? b id = l.count? b id := by
  rw [Ledger.count?, ht.usage?, ← Ledger.count?]

theorem Twin.references (ht : l.Twin l') (b : BundleId) : l'.references b = l.references b :=
  congrArg (List.map Usage.reference) (ht.usages b)

theorem Twin.slots_perm (ht : l.Twin l') : l'.inUse.toList.Perm l.inUse.toList :=
  Shelf.toList_perm Keying.bundle_lawful (fun h => (Keying.same_bundle _ _).mp h) ht.sound.tidy ht.sound'.tidy ht.usages

theorem Twin.bundles_perm (ht : l.Twin l') (id : Nat) : (l'.bundles id).Perm (l.bundles id) :=
  (ht.slots_perm.filter _).map _

theorem Twin.holders_perm (ht : l.Twin l') (h : Handle) : (l'.holders h).Perm (l.holders h) :=
  ht.slots_perm.flatMap_right _

/-! ## Changes -/

theorem Twin.acquire (ht : l.Twin l') (b : BundleId) (r : Reference) :
    ∃ cached k k', l.acquire b r = (cached, k) ∧ l'.acquire b r = (cached, k') ∧ k.Twin k' := by
  refine ⟨_, (l.acquire b r).2, (l'.acquire b r).2, rfl, ?_, ht.sound.acquire b r, ht.sound'.acquire b r, fun c => ?_⟩
  · simp only [Ledger.acquire, ht.usage?]
  · rw [usages_acquire ht.sound', usages_acquire ht.sound, ht.usages, ht.usages]

theorem Twin.updateIn (ht : l.Twin l') {b : BundleId} {id : Nat} {u : Usage α} (hu : l.usage? b id = some u)
    {f : Usage α → Usage α} (hf : (f u).reference.id = id) :
    Twin ⟨l.inUse.adjust b (Ledger.updateIn id f)⟩ ⟨l'.inUse.adjust b (Ledger.updateIn id f)⟩ where
  sound := sound_updateIn ht.sound hu hf
  sound' := sound_updateIn ht.sound' ((ht.usage? b id).trans hu) hf
  usages c := by rw [usages_adjust ht.sound' b rfl, usages_adjust ht.sound b rfl, ht.usages, ht.usages]

theorem Twin.flush (ht : l.Twin l') (b : BundleId) (id : Nat) : (l.flush b id).Twin (l'.flush b id) where
  sound := ht.sound.flush b id
  sound' := ht.sound'.flush b id
  usages c := by rw [usages_flush ht.sound', usages_flush ht.sound, ht.usages, ht.usages]

theorem Twin.store (ht : l.Twin l') (b : BundleId) (id : Nat) (o : α) :
    ∃ stored k k', l.store b id o = (stored, k) ∧ l'.store b id o = (stored, k') ∧ k.Twin k' := by
  simp only [Ledger.store, ht.usage?]
  cases hu : l.usage? b id with
  | none => exact ⟨_, _, _, rfl, rfl, ht⟩
  | some u =>
    cases hcached : u.object with
    | some cached =>
      simp only [hcached]
      exact ⟨_, _, _, rfl, rfl, ht⟩
    | none =>
      simp only [hcached]
      exact ⟨_, _, _, rfl, rfl, ht.updateIn hu (mem_of_usage? hu).2⟩

theorem Twin.release (ht : l.Twin l') (b : BundleId) (id : Nat) (force : Bool) :
    ∃ released k k', l.release b id force = (released, k) ∧ l'.release b id force = (released, k') ∧ k.Twin k' := by
  simp only [Ledger.release, ht.usage?]
  cases hu : l.usage? b id with
  | none => exact ⟨_, _, _, rfl, rfl, ht⟩
  | some u =>
    by_cases hmore : (!force && decide (0 < u.count - 1)) = true
    · simp only [hmore, if_true]
      exact ⟨_, _, _, rfl, rfl, ht.updateIn hu (mem_of_usage? hu).2⟩
    · simp only [hmore]
      exact ⟨_, _, _, rfl, rfl, ht.flush b id⟩

/-- A drain goes through the holders in the order of the table, so the objects come in another order. -/
theorem Twin.drain (ht : l.Twin l') (h : Handle) :
    (l'.drain h).uses = (l.drain h).uses ∧ (l'.drain h).objects.Perm (l.drain h).objects ∧
      (l.drain h).ledger.Twin (l'.drain h).ledger := by
  have hcached : cachedAt l' = cachedAt l := funext fun p => by rw [cachedAt, cachedAt, ht.usage?]
  have huses : usesAt l' = usesAt l := funext fun p => by rw [usesAt, usesAt, ht.usage?]
  obtain ⟨hsound, hobjects, -, hsum⟩ := drain_spec ht.sound h
  obtain ⟨hsound', hobjects', -, hsum'⟩ := drain_spec ht.sound' h
  refine ⟨?_, ?_, hsound, hsound', fun b => ?_⟩
  · rw [hsum, hsum', huses]
    exact ((ht.holders_perm h).map _).sum_eq
  · rw [hobjects, hobjects', hcached]
    exact (ht.holders_perm h).flatMap_right _
  · rw [usages_drain ht.sound', usages_drain ht.sound, ht.usages]

end Ledger

namespace Registry

structure Twin (g g' : Registry α) : Prop where
  hasSink : g'.hasSink = g.hasSink
  hookName : g'.config.hookName = g.config.hookName
  tidy : Shelf.Tidy g.index
  tidy' : Shelf.Tidy g'.index
  owned : ∀ b, g'.owned b = g.owned b
  hooks : g'.hooks = g.hooks
  ledger : g.ledger.Twin g'.ledger
  nextService : g'.nextService = g.nextService
  handed : g'.references.size = g.references.size

variable {g g' : Registry α}

theorem twin_ofConfig {c c' : Config} (hfirst : c'.firstServiceId = c.firstServiceId) (hname : c'.hookName = c.hookName)
    (hasSink : Bool) : Twin (ofConfig c hasSink : Registry α) (ofConfig c' hasSink) where
  hasSink := rfl
  hookName := hname
  tidy := Shelf.tidy_withCapacity ..
  tidy' := Shelf.tidy_withCapacity ..
  owned _ := (Shelf.listAt_withCapacity ..).trans (Shelf.listAt_withCapacity ..).symm
  hooks := rfl
  ledger := Ledger.twin_withCapacity ..
  nextService := hfirst
  handed := rfl

/-! ## Answers -/

theorem Twin.isIndexed (ht : g.Twin g') (b : BundleId) (h : Handle) : g'.isIndexed b h = g.isIndexed b h := by
  rw [Registry.isIndexed, ht.owned, ← Registry.isIndexed]

theorem Twin.members_perm (ht : g.Twin g') : g'.index.members.Perm g.index.members := by
  have hmembers : ∀ t : Shelf Keying.bundle Handle, t.members = (t.toList.map (·.2)).flatten := by
    intro t
    rw [Shelf.members, Table.values, Table.toList, List.map_map]
    rfl
  rw [hmembers, hmembers]
  have hslots := Shelf.toList_perm Keying.bundle_lawful (fun h => (Keying.same_bundle _ _).mp h) ht.tidy ht.tidy' ht.owned
  exact (hslots.map _).flatten

/-! ## Changes -/

theorem Twin.enlist (ht : g.Twin g') (b : BundleId) (name : String) (h : Handle) :
    (g.enlist b name h).Twin (g'.enlist b name h) where
  hasSink := ht.hasSink
  hookName := ht.hookName
  tidy := ht.tidy.editAt Keying.bundle_lawful b (f := (· ++ [h])) (by simp)
  tidy' := ht.tidy'.editAt Keying.bundle_lawful b (f := (· ++ [h])) (by simp)
  owned c := by rw [owned_enlist ht.tidy', owned_enlist ht.tidy, ht.owned, ht.owned]
  hooks := by simp only [Registry.enlist, ht.hookName, ht.hooks]
  ledger := ht.ledger
  nextService := congrArg (· + 1) ht.nextService
  handed := ht.handed

theorem Twin.unlist (ht : g.Twin g') (b : BundleId) (h : Handle) : (g.unlist b h).Twin (g'.unlist b h) where
  hasSink := ht.hasSink
  hookName := ht.hookName
  tidy := ht.tidy.trimAt Keying.bundle_lawful b _
  tidy' := ht.tidy'.trimAt Keying.bundle_lawful b _
  owned c := by rw [owned_unlist ht.tidy', owned_unlist ht.tidy, ht.owned, ht.owned]
  hooks := congrArg (List.filter (· != h)) ht.hooks
  ledger := ht.ledger
  nextService := ht.nextService
  handed := ht.handed

theorem Twin.mint_eq (ht : g.Twin g') (service : ServiceId) (h : Handle) :
    (g'.mint service h).1 = (g.mint service h).1 := by
  simp only [Registry.mint, ht.handed]

/-- It does not matter what the references are to. -/
theorem Twin.mint (ht : g.Twin g') (service service' : ServiceId) (h h' : Handle) :
    (g.mint service h).2.Twin (g'.mint service' h').2 := by
  refine { ht with handed := ?_ }
  simp only [Registry.mint, Array.size_push, ht.handed]

theorem Twin.setLedger (ht : g.Twin g') {l l' : Ledger α} (hl : l.Twin l') :
    Twin { g with ledger := l } { g' with ledger := l' } :=
  { ht with ledger := hl }

end Registry

end Switchboard
