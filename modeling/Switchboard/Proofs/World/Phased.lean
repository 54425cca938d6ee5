/-
  Switchboard.Proofs.World.Phased — the index, the ledger and the withdrawals fit the phases.

  A registration is in the index exactly while it is active, exactly one withdrawal is under way
  for one that is unregistering and none for another, and the ledger has entries for valid
  registrations only (`Phased`). A withdrawal leaves the index and turns unregistering in one
  step, drains and turns invalid in another, and so every step keeps it (`phased_step`).
-/

import Switchboard.Proofs.World.Housed

namespace Switchboard

variable {α : Type}

namespace Frame

def leaves (h : Handle) : Frame α → Bool
  | withdrawing _ t | draining _ t => t == h
  | _ => false

theorem aside_of_loop {f : Frame α} (hf : f.isLoop) : f.isAside := by
  cases f <;> first | rfl | cases hf

theorem leaves_of_aside {f : Frame α} (hf : f.isAside) (h : Handle) : f.leaves h = false := by
  cases f <;> first | rfl | cases hf

end Frame

namespace World

variable {w w' v : World α} {g g' k : Registry α} {top f : Option (Frame α)} {out : Outcome α} {h t : Handle} {r : Nat}

/-- The index, the withdrawals under way and the entries of the ledger fit the phases. -/
structure Phased (w : World α) (g : Registry α) : Prop where
  valid : ∀ b, ∀ u ∈ g.ledger.usages b, w.isValid u.reference.target = true
  listed : ∀ h x, w.registration? h = some x → (g.isIndexed x.bundle h = true ↔ x.phase = .active)
  hooked : ∀ h ∈ g.hooks, w.isActive h = true
  leaving : ∀ h, w.stack.countP (·.leaves h) = if w.phase? h = some .unregistering then 1 else 0

theorem Phased.leaving_below (hp : Phased (v.onto top) g) (h : Handle) :
    top.toList.countP (·.leaves h) + v.stack.countP (·.leaves h) = if v.phase? h = some .unregistering then 1 else 0 := by
  rw [← List.countP_append]
  exact hp.leaving h

/-- A step that leaves phases, index and hooks alone. -/
theorem Phased.next (hp : Phased (v.onto top) g)
    (hcore : ∀ t, (w'.registration? t).map Registration.core = (v.registration? t).map Registration.core)
    (hindex : g'.index = g.index) (hhooks : g'.hooks = g.hooks)
    (hvalid : ∀ b, ∀ u ∈ g'.ledger.usages b, v.isValid u.reference.target = true) {p : List (Frame α)}
    (hstack : w'.stack = p ++ v.stack) (hleaves : ∀ h, p.countP (·.leaves h) = top.toList.countP (·.leaves h)) :
    Phased w' g' := by
  have hphase : ∀ t, w'.phase? t = v.phase? t := by
    intro t
    have h := congrArg (Option.map Registration.phase) (hcore t)
    rw [Option.map_map, Option.map_map] at h
    exact h
  refine ⟨fun b u hu => ?_, fun h x hx => ?_, fun h hh => ?_, fun h => ?_⟩
  · rw [isValid_eq (hphase _)]
    exact hvalid b u hu
  · have hcore' := hcore h
    rw [hx, Option.map_some, eq_comm, Option.map_eq_some_iff] at hcore'
    obtain ⟨y, hy, hxy⟩ := hcore'
    have hbundle : y.bundle = x.bundle := (congrArg Registration.bundle hxy :)
    have hphase : y.phase = x.phase := (congrArg Registration.phase hxy :)
    have hlisted := hp.listed h y hy
    rw [Registry.isIndexed, Registry.owned, hbundle, hphase] at hlisted
    rw [Registry.isIndexed, Registry.owned, hindex]
    exact hlisted
  · rw [hhooks] at hh
    have hactive : v.isActive h = true := hp.hooked h hh
    rw [isActive_iff] at hactive ⊢
    exact (hphase h).trans hactive
  · rw [hstack, hphase, List.countP_append, hleaves]
    exact hp.leaving_below h

/-- Editing an entry keeps entries valid, if the new one is. -/
theorem Phased.valid_edit (hp : Phased w g) {l : Ledger α} {b : BundleId} {id : Nat} {u x : Option (Usage α)}
    (he : g.ledger.Edit l b id u x) (hx : ∀ y, x = some y → w.isValid y.reference.target = true) :
    ∀ c, ∀ y ∈ l.usages c, w.isValid y.reference.target = true := by
  intro c y hy
  rcases he.mem hy with hy | ⟨-, hy⟩
  · exact hp.valid c y hy
  · exact hx y hy

theorem Phased.valid_before (hp : Phased w g) {l : Ledger α} {b : BundleId} {id : Nat} {u : Usage α}
    {x : Option (Usage α)} (he : g.ledger.Edit l b id (some u) x) : w.isValid u.reference.target = true :=
  hp.valid b u (Ledger.mem_of_usage? he.usage?_before).1

theorem countP_option {p : Frame α → Bool} {o : Option (Frame α)} (h : ∀ k ∈ o, p k = false) : o.toList.countP p = 0 := by
  rw [List.countP_eq_zero]
  intro k hk
  simp [h k (Option.mem_toList.mp hk)]

theorem countP_leaves_loop (hf : ∀ k ∈ f, k.isLoop) (h : Handle) : f.toList.countP (·.leaves h) = 0 :=
  countP_option fun k hk => Frame.leaves_of_aside (Frame.aside_of_loop (hf k hk)) h

theorem leaves_fetch (r : Nat) (b : BundleId) (ref : Reference) (cached : Option α) (source : Source α) (h : Handle) :
    (fetch r b ref cached source).leaves h = false := by
  cases cached <;> cases source <;> rfl

theorem Phased.settles (hp : Phased w g) {b : BundleId} {id : Nat} {valid fresh : Bool} {o : Option α}
    {e : Settlement α} (hs : Settles g.ledger b id valid fresh o e) :
    ∀ c, ∀ y ∈ e.ledger.usages c, w.isValid y.reference.target = true := by
  cases hs with
  | cached => exact hp.valid
  | missing => exact hp.valid
  | existing => exact hp.valid
  | lost => exact hp.valid
  | kept _ _ _ _ _ he =>
    refine hp.valid_edit he ?_
    rintro y ⟨⟩
    have hv := hp.valid_before he
    exact hv
  | spent _ _ _ _ he =>
    refine hp.valid_edit he ?_
    rintro y ⟨⟩
    have hv := hp.valid_before he
    exact hv
  | dropped _ _ _ he =>
    refine hp.valid_edit he ?_
    rintro y ⟨⟩

theorem phased_enlisted (hh : Housed v g) (hp : Phased v g) {x : Registration α} (hx : x.phase = .active)
    (hstack : w'.stack = f.toList ++ v.stack) (hf : ∀ k ∈ f, k.isAside)
    (hreg : w'.registrations = (v.enlisted r g x).registrations) :
    Phased w' (g.enlist x.bundle x.name v.registrations.size) := by
  have hregistration : ∀ t, w'.registration? t = if t = v.registrations.size then some x else v.registration? t := by
    intro t
    rw [← registration?_enlisted v r g x t, registration?, hreg]
    rfl
  have hold : ∀ t p, v.phase? t = some p → w'.phase? t = some p := by
    intro t p ht
    have hne : t ≠ v.registrations.size := by
      rintro rfl
      rw [phase?, registration?_size] at ht
      cases ht
    rw [phase?, hregistration, if_neg hne]
    exact ht
  refine ⟨fun b u hu => ?_, fun h y hy => ?_, fun h hmem => ?_, fun h => ?_⟩
  · rcases isValid_iff.mp (hp.valid b u hu) with hv | hv
    · exact isValid_iff.mpr (Or.inl (hold _ _ hv))
    · exact isValid_iff.mpr (Or.inr (hold _ _ hv))
  · rw [hregistration] at hy
    rw [Registry.isIndexed_enlist hh.sound.index]
    split at hy
    case isTrue hsize =>
      obtain rfl := Option.some.inj hy
      simp [hsize, hx]
    case isFalse hne => simp [hne, hp.listed h y hy]
  · have hmem' : h ∈ g.hooks ∨ h = v.registrations.size := by
      unfold Registry.enlist at hmem
      dsimp only at hmem
      split at hmem
      · simpa using hmem
      · exact Or.inl hmem
    rw [isActive_iff]
    rcases hmem' with hmem | rfl
    · exact hold h _ (isActive_iff.mp (hp.hooked h hmem))
    · rw [phase?, hregistration, if_pos rfl, Option.map_some, hx]
  · rw [hstack, List.countP_append, countP_option fun k hk => Frame.leaves_of_aside (hf k hk) h, Nat.zero_add, hp.leaving h]
    by_cases hsize : h = v.registrations.size
    · rw [phase?, phase?, hregistration, if_pos hsize, hsize, registration?_size, Option.map_some, hx]
      simp
    · rw [phase?, phase?, hregistration, if_neg hsize]

theorem phased_retired (hh : Housed v g) {p : World α} (hp : Phased (v.onto top) g) {x : Registration α}
    (hx : v.registration? h = some x) (hactive : v.isActive h = true) (htop : ∀ k ∈ top, k.isLoop)
    (hf : ∀ k ∈ f, k.isLoop) {leaf : Frame α} (hleaf : ∀ t, leaf.leaves t = (h == t))
    (hstack : p.stack = leaf :: (f.toList ++ v.stack)) (hreg : p.registrations = (v.setPhase h .unregistering).registrations) :
    Phased p (g.unlist x.bundle h) := by
  have hregistration : ∀ t, p.registration? t =
      if t = h then (v.registration? t).map (fun x => { x with phase := .unregistering }) else v.registration? t := by
    intro t
    rw [← registration?_setPhase, registration?, hreg]
    rfl
  have hphase : ∀ t, p.phase? t = if t = h then some .unregistering else v.phase? t := by
    intro t
    rw [phase?, hregistration]
    split
    case isTrue ht => rw [ht, hx]; rfl
    case isFalse => rfl
  have hactive' := isActive_iff.mp hactive
  refine ⟨fun b u hu => ?_, fun t y hy => ?_, fun t hmem => ?_, fun t => ?_⟩
  · rw [isValid_iff, hphase]
    by_cases ht : u.reference.target = h
    · rw [if_pos ht]
      exact Or.inr rfl
    · rw [if_neg ht]
      exact isValid_iff.mp (hp.valid b u hu)
  · rw [Registry.isIndexed_unlist hh.sound.index]
    rw [hregistration] at hy
    split at hy
    case isTrue ht =>
      rw [ht, hx] at hy
      obtain rfl := Option.some.inj hy
      simp [ht]
    case isFalse ht =>
      rw [hp.listed t y hy]
      simp [ht]
  · obtain ⟨hmem, hne⟩ := List.mem_filter.mp hmem
    rw [isActive_iff, hphase, if_neg (by simpa using hne)]
    exact isActive_iff.mp (hp.hooked t hmem)
  · have hbefore := hp.leaving_below t
    rw [countP_leaves_loop htop, Nat.zero_add] at hbefore
    rw [hstack, List.countP_cons, List.countP_append, countP_leaves_loop hf, Nat.zero_add, hbefore, hphase, hleaf]
    by_cases ht : t = h
    · subst ht
      simp [hactive']
    · simp [ht, Ne.symm ht]

/-- What is about to be drained is unregistering. -/
theorem Phased.phase_draining (hp : Phased (v.onto (some (.draining r h))) g) : v.phase? h = some .unregistering := by
  have hleaving := hp.leaving_below h
  rw [Option.toList_some, List.countP_singleton, if_pos (by simp [Frame.leaves])] at hleaving
  by_cases hu : v.phase? h = some .unregistering
  · exact hu
  · rw [if_neg hu] at hleaving
    omega

theorem Phased.phase_drained (hp : Phased (v.onto (some (.draining r h))) g) :
    (v.setPhase h .invalid).phase? h = some .invalid := by
  rw [phase?_setPhase, if_pos rfl, hp.phase_draining]
  rfl

theorem phased_drained (hh : Housed v g) (hp : Phased (v.onto (some (.draining r h))) g) {p : World α} {k : Frame α}
    (hk : ∀ t, k.leaves t = false) (hstack : p.stack = k :: v.stack)
    (hreg : p.registrations = (v.setPhase h .invalid).registrations) :
    Phased p { g with ledger := (g.ledger.drain h).ledger } := by
  have hbefore := hp.phase_draining
  have hregistration : ∀ t, p.registration? t =
      if t = h then (v.registration? t).map (fun x => { x with phase := .invalid }) else v.registration? t := by
    intro t
    rw [← registration?_setPhase, registration?, hreg]
    rfl
  have hphase : ∀ t, p.phase? t = if t = h then some .invalid else v.phase? t := by
    intro t
    rw [phase?, hregistration]
    split
    case isTrue ht =>
      rw [ht]
      rw [phase?, Option.map_eq_some_iff] at hbefore
      obtain ⟨x, hx, -⟩ := hbefore
      rw [hx]
      rfl
    case isFalse => rfl
  refine ⟨fun b u hu => ?_, fun t y hy => ?_, fun t hmem => ?_, fun t => ?_⟩
  · rw [Ledger.usages_drain hh.sound.ledger] at hu
    obtain ⟨hu, hne⟩ := List.mem_filter.mp hu
    rw [isValid_iff, hphase, if_neg (by simpa using hne)]
    exact isValid_iff.mp (hp.valid b u hu)
  · rw [hregistration] at hy
    split at hy
    case isTrue ht =>
      obtain ⟨x, hx, rfl⟩ := Option.map_eq_some_iff.mp hy
      have hlisted := hp.listed t x hx
      have hx' : x.phase = .unregistering := by
        rw [← ht, phase?_of_some hx] at hbefore
        exact Option.some.inj hbefore
      have hnot : ¬ g.isIndexed x.bundle t = true := by
        rw [hlisted, hx']
        simp
      exact iff_of_false hnot (by simp)
    case isFalse => exact hp.listed t y hy
  · have hactive := isActive_iff.mp (hp.hooked t hmem)
    rw [isActive_iff, hphase, if_neg]
    · exact hactive
    · rintro rfl
      cases hbefore.symm.trans hactive
  · -- The frame that drained is gone, and no other was on its way with `h`.
    have hleaving := hp.leaving_below t
    rw [Option.toList_some, List.countP_singleton] at hleaving
    rw [hstack, List.countP_cons, hk, if_neg Bool.false_ne_true, hphase]
    by_cases ht : t = h
    · subst ht
      rw [if_pos (by simp [Frame.leaves]), if_pos hbefore] at hleaving
      rw [if_pos rfl, if_neg (by simp)]
      omega
    · rw [if_neg (by simpa [Frame.leaves] using Ne.symm ht)] at hleaving
      rw [if_neg ht]
      omega

theorem phased_step (hh : Housed (v.onto top) g) (hp : Phased (v.onto top) g) (hs : Step v top out)
    (hh' : Housed out.1 g') : Phased out.1 g' := by
  have hsole : v.registries = #[g] := hh.sole
  have hgone : ∀ {h : Handle}, (∀ k ∈ top, k.isLoop) → ∀ {fs : List (Frame α)}, fs.countP (·.leaves h) = 0 →
      fs.countP (·.leaves h) = top.toList.countP (·.leaves h) := fun htop _ hfs => by
    rw [hfs, countP_leaves_loop htop]
  cases hs with
  | idle htop h =>
    obtain ⟨k, hk, hm⟩ := sole_alike hsole h.alike
    obtain rfl := sole_unique hk hh'.sole
    obtain ⟨f, hf, haside⟩ := h.stack
    have hledger : g'.ledger = g.ledger := by rw [hm.eq]
    refine hp.next h.alike.registration (by rw [hm.eq]) (by rw [hm.eq]) (by rw [hledger]; exact hp.valid) hf fun t => ?_
    rw [countP_option fun k hk => Frame.leaves_of_aside (haside k hk).1 t,
      countP_option fun k hk => Frame.leaves_of_aside (htop k hk) t]
  | publish b name source p held hg hf =>
    obtain ⟨rfl, rfl⟩ := sole_get hsole hg
    obtain rfl := sole_eq hsole hh'.sole
    refine phased_enlisted (r := 0) hh hp (x := newcomer 0 _ b name source p) rfl rfl (fun k hk => ?_) rfl
    rw [hf k hk]
    rfl
  | @retire top f r k h x os htop hf hg hx hindexed hactive =>
    obtain ⟨rfl, rfl⟩ := sole_get hsole hg
    obtain rfl := sole_eq hsole hh'.sole
    refine phased_retired ⟨hsole, hh.sound, fun q hq => hh.refs q (List.mem_append_right _ hq)⟩ hp hx hactive htop
      (fun k hk => (hf k hk).1) (fun t => ?_) rfl rfl
    split <;> rfl
  | notified =>
    obtain rfl := sole_unique hsole hh'.sole
    exact hp.next (p := [_]) (fun t => rfl) rfl rfl hp.valid rfl fun t => rfl
  | drain f hg hf =>
    obtain ⟨rfl, rfl⟩ := sole_get hsole hg
    obtain rfl := sole_eq hsole hh'.sole
    exact phased_drained ⟨hsole, hh.sound, fun q hq => hh.refs q (List.mem_append_right _ hq)⟩ hp
      (fun t => by rw [hf]; rfl) rfl rfl
  | @acquire r k b ref x os f hg hknown hx hf =>
    obtain ⟨rfl, rfl⟩ := sole_get hsole hg
    obtain rfl := sole_eq hsole hh'.sole
    -- A new entry is for what was just found valid.
    have he := Ledger.edit_acquire hh.sound.ledger b ref
    refine hp.next (p := [_]) (fun t => rfl) rfl rfl (hp.valid_edit he fun y hy => ?_) rfl fun t => ?_
    · cases hu : k.ledger.usage? b ref.id with
      | none =>
        rw [hu] at hy
        obtain rfl := Option.some.inj hy
        exact (behind?_eq_some.mp hx).1
      | some u =>
        rw [hu] at hy
        obtain rfl := Option.some.inj hy
        exact hp.valid b u (Ledger.mem_of_usage? hu).1
    · rw [hf, List.countP_singleton, leaves_fetch]
      rfl
  | supplied o =>
    obtain rfl := sole_unique hsole hh'.sole
    exact hp.next (p := [_]) (fun t => rfl) rfl rfl hp.valid rfl fun t => rfl
  | @settle r k h b ref fresh o os e f hg he hf =>
    obtain ⟨rfl, rfl⟩ := sole_get hsole hg
    obtain rfl := sole_eq hsole hh'.sole
    have hsettles := settles_of_eq hh.sound.ledger he
    refine hp.next (p := [_]) (fun t => rfl) rfl rfl (hp.settles hsettles) rfl fun t => ?_
    rw [hf]
    rfl
  | decrement htop hf hg hknown hrel =>
    obtain ⟨rfl, rfl⟩ := sole_get hsole hg
    obtain rfl := sole_eq hsole hh'.sole
    obtain ⟨u, -, -, -, -, he⟩ := Ledger.release_decremented hh.sound.ledger hrel
    refine hp.next (fun t => rfl) rfl rfl (hp.valid_edit he fun y hy => ?_) rfl fun t => ?_
    · obtain rfl := Option.some.inj hy
      have hv := hp.valid_before he
      exact hv
    · exact hgone htop (countP_leaves_loop (fun k hk => (hf k hk).1) t)
  | flush k htop hf hg hknown hrel hk =>
    obtain ⟨rfl, rfl⟩ := sole_get hsole hg
    obtain rfl := sole_eq hsole hh'.sole
    obtain ⟨u, -, -, -, he⟩ := Ledger.release_flushed hh.sound.ledger hrel
    refine hp.next (p := k.toList ++ _) (fun t => rfl) rfl rfl (hp.valid_edit he fun y hy => by cases hy)
      (List.append_assoc ..).symm fun t => hgone htop ?_
    rw [List.countP_append, countP_leaves_loop (fun k hk => (hf k hk).1), Nat.add_zero]
    refine countP_option fun q hq => ?_
    rw [Option.mem_def, hk, Option.map_eq_some_iff] at hq
    obtain ⟨o, -, rfl⟩ := hq
    rfl
  | handed =>
    obtain rfl := sole_unique hsole hh'.sole
    exact hp.next (p := [_]) (fun t => rfl) rfl rfl hp.valid rfl fun t => rfl

end World

end Switchboard
