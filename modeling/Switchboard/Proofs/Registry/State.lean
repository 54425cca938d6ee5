/-
  Switchboard.Proofs.Registry.State — what a registry keeps in order.

  The index is a tidy shelf, the ledger is sound, and every reference in the ledger was handed
  out here (`Registry.Sound`). Publishing, withdrawing and handing out references keep it so.

  A reference that was handed out is found by its id alone (`knows_unique`).
-/

import Switchboard.Proofs.Registry.Ledger
import Switchboard.Registry.State

namespace Switchboard

namespace Registry

variable {α : Type} {g g' : Registry α}

structure Sound (g : Registry α) : Prop where
  index : Shelf.Tidy g.index
  ledger : g.ledger.Sound
  known : ∀ b, ∀ u ∈ g.ledger.usages b, g.knows u.reference = true

theorem sound_ofConfig (c : Config) (hasSink : Bool) : (ofConfig c hasSink : Registry α).Sound where
  index := Shelf.tidy_withCapacity ..
  ledger := Ledger.sound_withCapacity ..
  known b u hu := by
    rw [ofConfig, Ledger.usages_withCapacity] at hu
    cases hu

/-! ## References -/

theorem knows_iff {ref : Reference} :
    g.knows ref = true ↔ 0 < ref.id ∧ g.references[ref.id - 1]? = some ref := by
  simp [knows]

theorem knows_unique {p q : Reference} (hp : g.knows p = true) (hq : g.knows q = true) (hid : p.id = q.id) : p = q := by
  have hp' := (knows_iff.mp hp).2
  rw [hid, (knows_iff.mp hq).2] at hp'
  exact (Option.some.inj hp').symm

/-- The registry has handed out references since, and nothing else happened to it. -/
inductive Minted : Registry α → Registry α → Prop
  | refl (g : Registry α) : Minted g g
  | mint {g g' : Registry α} (service : ServiceId) (h : Handle) : Minted g g' → Minted g (g'.mint service h).2

theorem Minted.trans {g'' : Registry α} (h : g.Minted g') (h' : g'.Minted g'') : g.Minted g'' := by
  induction h' with
  | refl => exact h
  | mint service t _ ih => exact ih.mint service t

/-- Nothing but references is new. -/
theorem Minted.eq (h : g.Minted g') : g' = { g with references := g'.references } := by
  induction h with
  | refl => rfl
  | mint service t _ ih => exact congrArg (fun k => (Registry.mint k service t).2) ih

theorem knows_mint {ref : Reference} (h : g.knows ref = true) (service : ServiceId) (t : Handle) :
    (g.mint service t).2.knows ref = true := by
  obtain ⟨hpos, hget⟩ := knows_iff.mp h
  have hlt : ref.id - 1 < g.references.size := (Array.getElem?_eq_some_iff.mp hget).1
  refine knows_iff.mpr ⟨hpos, ?_⟩
  show (g.references.push _)[ref.id - 1]? = some ref
  rw [Array.getElem?_push_lt hlt, ← Array.getElem?_eq_getElem hlt]
  exact hget

theorem Minted.knows (h : g.Minted g') {ref : Reference} (hk : g.knows ref = true) : g'.knows ref = true := by
  induction h with
  | refl => exact hk
  | mint service t _ ih => exact knows_mint ih service t

theorem Minted.sound (h : g.Minted g') (hg : g.Sound) : g'.Sound := by
  have hindex : g'.index = g.index := by rw [h.eq]
  have hledger : g'.ledger = g.ledger := by rw [h.eq]
  refine ⟨hindex ▸ hg.index, hledger ▸ hg.ledger, fun b u hu => ?_⟩
  rw [hledger] at hu
  exact h.knows (hg.known b u hu)

/-! ## The index -/

theorem owned_enlist (hg : Shelf.Tidy g.index) (b : BundleId) (name : String) (h : Handle) (c : BundleId) :
    (g.enlist b name h).owned c = if c = b then g.owned b ++ [h] else g.owned c := by
  show (g.index.editAt b (· ++ [h])).listAt c = _
  rw [Shelf.listAt_editAt Keying.bundle_lawful hg.isMap]
  simp only [Keying.same_bundle, eq_comm (a := b)]
  rfl

theorem owned_unlist (hg : Shelf.Tidy g.index) (b : BundleId) (h : Handle) (c : BundleId) :
    (g.unlist b h).owned c = if c = b then (g.owned b).filter (· != h) else g.owned c := by
  show (g.index.trimAt b (· != h)).listAt c = _
  rw [Shelf.listAt_trimAt Keying.bundle_lawful hg]
  simp only [Keying.same_bundle, eq_comm (a := b)]
  rfl

theorem isIndexed_iff {b : BundleId} {h : Handle} : g.isIndexed b h = true ↔ h ∈ g.owned b := by
  simp [isIndexed]

theorem isIndexed_enlist (hg : Shelf.Tidy g.index) (b : BundleId) (name : String) (h : Handle) {c : BundleId} {t : Handle} :
    (g.enlist b name h).isIndexed c t = true ↔ (c = b ∧ t = h) ∨ g.isIndexed c t = true := by
  rw [isIndexed_iff, isIndexed_iff, owned_enlist hg]
  by_cases hc : c = b
  · subst hc
    simp [or_comm]
  · simp [hc]

theorem isIndexed_unlist (hg : Shelf.Tidy g.index) (b : BundleId) (h : Handle) {c : BundleId} {t : Handle} :
    (g.unlist b h).isIndexed c t = true ↔ g.isIndexed c t = true ∧ (c = b → t ≠ h) := by
  rw [isIndexed_iff, isIndexed_iff, owned_unlist hg]
  by_cases hc : c = b
  · subst hc
    simp
  · simp [hc]

theorem Sound.enlist (hg : g.Sound) (b : BundleId) (name : String) (h : Handle) : (g.enlist b name h).Sound :=
  ⟨hg.index.editAt Keying.bundle_lawful b (f := (· ++ [h])) (by simp), hg.ledger, hg.known⟩

theorem Sound.unlist (hg : g.Sound) (b : BundleId) (h : Handle) : (g.unlist b h).Sound :=
  ⟨hg.index.trimAt Keying.bundle_lawful b _, hg.ledger, hg.known⟩

/-! ## The ledger -/

/-- A bundle and a known reference: its entry, if there is one, is for that reference. -/
theorem Sound.reference_eq (hg : g.Sound) {b : BundleId} {ref : Reference} (hknown : g.knows ref = true) {u : Usage α}
    (hu : g.ledger.usage? b ref.id = some u) : u.reference = ref := by
  obtain ⟨hmem, hid⟩ := Ledger.mem_of_usage? hu
  exact knows_unique (hg.known b u hmem) hknown hid

/-- Editing an entry keeps a registry sound. -/
theorem Sound.edit (hg : g.Sound) {l : Ledger α} (hl : l.Sound) {b : BundleId} {id : Nat} {u v : Option (Usage α)}
    (he : g.ledger.Edit l b id u v) (hv : ∀ x, v = some x → g.knows x.reference = true) :
    Sound { g with ledger := l } := by
  refine ⟨hg.index, hl, fun c x hx => ?_⟩
  rcases he.mem hx with hx | ⟨-, hx⟩
  · exact hg.known c x hx
  · exact hv x hx

theorem Sound.drain (hg : g.Sound) (h : Handle) : Sound { g with ledger := (g.ledger.drain h).ledger } := by
  refine ⟨hg.index, Ledger.sound_drain hg.ledger h, fun b u hu => ?_⟩
  rw [Ledger.usages_drain hg.ledger] at hu
  exact hg.known b u (List.mem_filter.mp hu).1

end Registry

end Switchboard
