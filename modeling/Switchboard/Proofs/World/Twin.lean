/-
  Switchboard.Proofs.World.Twin — worlds whose registries are twins.

  Twins have the same registrations, holds and operations in flight. What does not go through a
  table does the same in both and leaves twins (`Parallel`), be it a call (`parallel_call`), an
  answer (`parallel_resume?`) or a section of its own (`parallel_advance?`). A drain does, and its
  objects are due in another order (`drain_twin`).

  The service with the least id is found whatever the order, for no two services of one registry
  have the same id (`Twin.leastId_active`).
-/

import Switchboard.Proofs.Registry.Twin
import Switchboard.Proofs.World.Lookup
import Switchboard.Proofs.World.Script

namespace Switchboard

variable {α : Type}

/-- Does the operation answer in the order of a table? -/
def Operation.isTabular : Operation α → Bool
  | find .. | users .. => true
  | _ => false

namespace World

structure Twin (w w' : World α) : Prop where
  registrations : w'.registrations = w.registrations
  held : w'.held = w.held
  stack : w'.stack = w.stack
  size : w'.registries.size = w.registries.size
  registries : ∀ (r : Nat) (g : Registry α), w.registries[r]? = some g →
    ∃ g', w'.registries[r]? = some g' ∧ g.Twin g'

structure Parallel (out out' : Outcome α) : Prop where
  world : out.1.Twin out'.1
  told : out'.2 = out.2

variable {w w' : World α} {g g' : Registry α} {out out' : Outcome α} {r : Nat} {f : Frame α}

/-! ## What twins agree on -/

theorem Twin.registry_none (ht : w.Twin w') (hg : w.registries[r]? = none) : w'.registries[r]? = none := by
  rw [Array.getElem?_eq_none_iff] at hg ⊢
  rwa [ht.size]

theorem Twin.registration? (ht : w.Twin w') : w'.registration? = w.registration? := by
  funext h
  rw [World.registration?, ht.registrations, ← World.registration?]

theorem Twin.phase? (ht : w.Twin w') : w'.phase? = w.phase? := by
  funext h
  rw [World.phase?, ht.registration?, ← World.phase?]

theorem Twin.isActive (ht : w.Twin w') : w'.isActive = w.isActive := by
  funext h
  rw [World.isActive, ht.phase?, ← World.isActive]

theorem Twin.isValid (ht : w.Twin w') : w'.isValid = w.isValid := by
  funext h
  rw [World.isValid, ht.phase?, ← World.isValid]

theorem Twin.isFactory (ht : w.Twin w') : w'.isFactory = w.isFactory := by
  funext h
  rw [World.isFactory, ht.registration?, ← World.isFactory]

theorem Twin.hasName (ht : w.Twin w') : w'.hasName = w.hasName := by
  funext name h
  rw [World.hasName, ht.registration?, ← World.hasName]

theorem Twin.serviceId (ht : w.Twin w') : w'.serviceId = w.serviceId := by
  funext h
  rw [World.serviceId, ht.registration?, ← World.serviceId]

theorem Twin.behind? (ht : w.Twin w') : w'.behind? = w.behind? := by
  funext ref
  rw [World.behind?, ht.isValid, ht.registration?, ← World.behind?]

theorem Twin.isIndexed (ht : w.Twin w') (hg : g.Twin g') (h : Handle) : w'.isIndexed g' h = w.isIndexed g h := by
  simp only [World.isIndexed, ht.registration?, hg.isIndexed]

theorem Twin.isAlive (ht : w.Twin w') : w'.isAlive = w.isAlive := by
  funext h
  have hkept : (w'.registries.any fun g => w'.isIndexed g h || g.hooks.contains h) =
      w.registries.any fun g => w.isIndexed g h || g.hooks.contains h := by
    rw [Bool.eq_iff_iff, Array.any_eq_true, Array.any_eq_true]
    constructor
    · intro hany
      obtain ⟨i, hi, hany⟩ := hany
      have hlt : i < w.registries.size := ht.size ▸ hi
      obtain ⟨k, hk, htwin⟩ := ht.registries i _ (Array.getElem?_eq_getElem hlt)
      rw [Array.getElem?_eq_getElem hi] at hk
      rw [Option.some.inj hk, ht.isIndexed htwin, htwin.hooks] at hany
      exact ⟨i, hlt, hany⟩
    · intro hany
      obtain ⟨i, hi, hany⟩ := hany
      have hlt : i < w'.registries.size := ht.size.symm ▸ hi
      obtain ⟨k, hk, htwin⟩ := ht.registries i _ (Array.getElem?_eq_getElem hi)
      rw [Array.getElem?_eq_getElem hlt] at hk
      rw [← ht.isIndexed htwin, ← htwin.hooks, ← Option.some.inj hk] at hany
      exact ⟨i, hlt, hany⟩
  rw [World.isAlive, World.isAlive, ht.held, ht.stack, hkept]

theorem Twin.isClientsTurn (ht : w.Twin w') : w'.isClientsTurn = w.isClientsTurn := by
  rw [World.isClientsTurn, World.pending?, ht.stack, ← World.pending?, ← World.isClientsTurn]

theorem Twin.active_perm (ht : w.Twin w') (hg : g.Twin g') : (w'.active g').Perm (w.active g) := by
  rw [active, active, ht.isActive]
  exact hg.members_perm.filter _

theorem Twin.registrationCount (ht : w.Twin w') (hg : g.Twin g') : w'.registrationCount g' = w.registrationCount g :=
  (ht.active_perm hg).length_eq

theorem Twin.candidates_perm (ht : w.Twin w') (hg : g.Twin g') (name : Option String) :
    (w'.candidates g' name).Perm (w.candidates g name) := by
  rw [candidates, candidates, ht.registration?, ht.hasName]
  exact ((ht.active_perm hg).filter _).filterMap _

theorem Twin.leastId (ht : w.Twin w') (hs : List Handle) : w'.leastId hs = w.leastId hs := by
  induction hs with
  | nil => rfl
  | cons h hs ih => rw [World.leastId, World.leastId, ih, ht.serviceId]

theorem Twin.leastId_active (ht : w.Twin w') (hg : g.Twin g') (hc : w.Catalogued) (hr : w.registries[r]? = some g)
    (name : String) :
    w'.leastId ((w'.active g').filter (w'.hasName name)) = w.leastId ((w.active g).filter (w.hasName name)) := by
  have hcandidates : (w.candidates g (some name)).map (·.1) = (w.active g).filter (w.hasName name) :=
    handles_candidates w g (some name)
  have hperm := (ht.active_perm hg).filter (w.hasName name)
  rw [ht.leastId, ht.hasName]
  cases hleast : w.leastId ((w.active g).filter (w.hasName name)) with
  | none =>
    cases hleast' : w.leastId ((w'.active g').filter (w.hasName name)) with
    | none => rfl
    | some m =>
      obtain ⟨n, hn⟩ := leastId_isSome (w := w) (hperm.mem_iff.mp (mem_of_leastId hleast'))
      rw [hleast] at hn
      cases hn
  | some m =>
    obtain ⟨m', hleast'⟩ := leastId_isSome (w := w) (hperm.mem_iff.mpr (mem_of_leastId hleast))
    rw [hleast']
    by_contra hne
    -- In the one order `m` is strictly least, and in the other it is not less than `m'`.
    have hlt := leastId_lt hc (snapshot_candidates hc (hc.indexes r g hr) (some name)) (hcandidates ▸ hleast) m'
      (hcandidates ▸ hperm.mem_iff.mp (mem_of_leastId hleast')) fun heq => hne (congrArg some heq)
    have hle := leastId_le hleast' m (hperm.mem_iff.mpr (mem_of_leastId hleast))
    exact Nat.not_lt.mpr hle hlt

/-! ## Changes of a world -/

theorem Twin.setRegistry (ht : w.Twin w') (r : Nat) (hg : g.Twin g') : (w.setRegistry r g).Twin (w'.setRegistry r g') where
  registrations := ht.registrations
  held := ht.held
  stack := ht.stack
  size := by simpa [World.setRegistry] using ht.size
  registries q k hk := by
    simp only [World.setRegistry, Array.getElem?_setIfInBounds, ht.size] at hk ⊢
    by_cases hq : r = q
    · simp only [hq, if_true] at hk ⊢
      by_cases hlt : q < w.registries.size
      · simp only [hlt, if_true] at hk ⊢
        exact ⟨g', rfl, Option.some.inj hk ▸ hg⟩
      · simp only [hlt, if_false] at hk
        cases hk
    · simp only [hq, if_false] at hk ⊢
      exact ht.registries q k hk

theorem Twin.updateRegistration (ht : w.Twin w') (h : Handle) (u : Registration α → Registration α) :
    (w.updateRegistration h u).Twin (w'.updateRegistration h u) :=
  { ht with registrations := congrArg (Array.modify · h u) ht.registrations }

theorem Twin.setPhase (ht : w.Twin w') (h : Handle) (p : Phase) : (w.setPhase h p).Twin (w'.setPhase h p) :=
  ht.updateRegistration h _

theorem Twin.push (ht : w.Twin w') (x : Registration α) :
    Twin { w with registrations := w.registrations.push x } { w' with registrations := w'.registrations.push x } :=
  { ht with registrations := congrArg (Array.push · x) ht.registrations }

theorem Twin.under (ht : w.Twin w') (s : List (Frame α)) : Twin { w with stack := s } { w' with stack := s } :=
  { ht with stack := rfl }

/-! ## How operations go on and end -/

theorem Parallel.after (hp : Parallel out out') (os : List (Occurrence α)) : Parallel (after os out) (after os out') :=
  ⟨hp.world, congrArg (os ++ ·) hp.told⟩

theorem parallel_place (ht : w.Twin w') (f : Frame α) : Parallel (w.place f) (w'.place f) :=
  ⟨{ ht with stack := congrArg (f :: ·) ht.stack }, rfl⟩

theorem parallel_finish (ht : w.Twin w') (reply : Reply α) : Parallel (w.finish reply) (w'.finish reply) := by
  have hloop : w'.stack.head?.any Frame.isLoop = w.stack.head?.any Frame.isLoop := by rw [ht.stack]
  unfold finish
  rw [hloop]
  split
  · exact ⟨ht, rfl⟩
  · cases reply with
    | published h => exact ⟨{ ht with held := congrArg (h :: ·) ht.held }, rfl⟩
    | _ => exact ⟨{ ht with }, rfl⟩

theorem parallel_release (ht : w.Twin w') (r : Nat) (h : Handle) (due : List (BundleId × α)) (e : Ending α) :
    Parallel (w.release r h due e) (w'.release r h due e) := by
  rw [release, release, ht.isFactory]
  exact parallel_place ht _

theorem parallel_conclude (ht : w.Twin w') (r : Nat) (h : Handle) (e : Ending α) :
    Parallel (w.conclude r h e) (w'.conclude r h e) := by
  cases e with
  | withdrawn => exact (parallel_finish ht _).after _
  | got b ref o => exact (parallel_finish ht _).after _
  | ungot => exact parallel_finish ht (.flag true)

/-! ## Lookups -/

theorem Twin.mint (ht : w.Twin w') (r : Nat) (h h' : Handle) : (w.mint r h).2.1.Twin (w'.mint r h').2.1 := by
  cases hg : w.registries[r]? with
  | none =>
    simpa only [World.mint, hg, ht.registry_none hg] using ht
  | some g =>
    obtain ⟨g', hg', htwin⟩ := ht.registries r g hg
    rw [mint_of_get hg, mint_of_get hg']
    exact ht.setRegistry r (htwin.mint _ _ h h')

theorem Twin.mintAll (ht : w.Twin w') (r : Nat) {hs hs' : List Handle} (hlength : hs'.length = hs.length) :
    (w.mintAll r hs).2.1.Twin (w'.mintAll r hs').2.1 := by
  induction hs generalizing hs' w w' with
  | nil =>
    obtain rfl := List.length_eq_zero_iff.mp hlength
    exact ht
  | cons h hs ih =>
    cases hs' with
    | nil => cases hlength
    | cons h' hs' => exact ih (ht.mint r h h') (Nat.succ.inj hlength)

theorem parallel_mint (ht : w.Twin w') (r : Nat) (h : Handle) :
    (w'.mint r h).1 = (w.mint r h).1 ∧ Parallel (w.mint r h).2 (w'.mint r h).2 := by
  have hnext := ht.mint r h h
  cases hg : w.registries[r]? with
  | none =>
    refine ⟨?_, hnext, ?_⟩ <;> simp only [World.mint, hg, ht.registry_none hg]
  | some g =>
    obtain ⟨g', hg', htwin⟩ := ht.registries r g hg
    refine ⟨?_, hnext, ?_⟩ <;> rw [mint_of_get hg, mint_of_get hg', ht.serviceId, htwin.mint_eq]

theorem parallel_mintAll (r : Nat) (hs : List Handle) {w w' : World α} (ht : w.Twin w') :
    (w'.mintAll r hs).1 = (w.mintAll r hs).1 ∧ Parallel (w.mintAll r hs).2 (w'.mintAll r hs).2 := by
  induction hs generalizing w w' with
  | nil => exact ⟨rfl, ht, rfl⟩
  | cons h hs ih =>
    obtain ⟨href, hone⟩ := parallel_mint ht r h
    obtain ⟨hrefs, hall⟩ := ih hone.world
    simp only [World.mintAll]
    rw [href, hone.told, hrefs, hall.told]
    exact ⟨rfl, hall.world, rfl⟩

theorem parallel_returnAll (ht : w.Twin w') (r : Nat) (hs : List Handle) :
    Parallel (w.returnAll r hs) (w'.returnAll r hs) := by
  obtain ⟨hrefs, hall⟩ := parallel_mintAll r hs ht
  simp only [returnAll]
  rw [hrefs, hall.told]
  exact (parallel_finish hall.world _).after _

theorem parallel_findOne (ht : w.Twin w') (hg : g.Twin g') (hc : w.Catalogued) (hr : w.registries[r]? = some g)
    (name : String) : Parallel (w.findOne r g name) (w'.findOne r g' name) := by
  simp only [findOne]
  rw [ht.leastId_active hg hc hr]
  cases w.leastId ((w.active g).filter (w.hasName name)) with
  | none => exact parallel_finish ht _
  | some h =>
    obtain ⟨href, hone⟩ := parallel_mint ht r h
    simp only
    rw [href, hone.told]
    exact (parallel_finish hone.world _).after _

theorem parallel_filterNext (ht : w.Twin w') (r : Nat) (found : List Reference) (cs : List (Handle × Properties)) :
    Parallel (w.filterNext r found cs) (w'.filterNext r found cs) := by
  cases cs with
  | nil => exact parallel_finish ht (.references found)
  | cons c cs => exact parallel_place ht _

/-- The candidate is picked, and the filter is asked of the next. -/
theorem parallel_picked (ht : w.Twin w') (r : Nat) (h : Handle) (found : List Reference)
    (rest : List (Handle × Properties)) :
    Parallel (after (w.mint r h).2.2 ((w.mint r h).2.1.filterNext r (found ++ (w.mint r h).1.toList) rest))
      (after (w'.mint r h).2.2 ((w'.mint r h).2.1.filterNext r (found ++ (w'.mint r h).1.toList) rest)) := by
  obtain ⟨href, hone⟩ := parallel_mint ht r h
  rw [href, hone.told]
  exact (parallel_filterNext hone.world r _ rest).after _

/-! ## Publishing -/

theorem parallel_register (ht : w.Twin w') (hg : g.Twin g') (r : Nat) (b : BundleId) (name : String) (source : Source α)
    (p : Option Properties) : Parallel (w.register r g b name source p) (w'.register r g' b name source p) := by
  unfold register
  split
  · exact parallel_finish ht _
  · dsimp only
    rw [ht.registrations, hg.nextService, hg.hasSink]
    refine Parallel.after ?_ _
    have hnext := (ht.push ⟨g.nextService, name, b, r, source, stamped p name g.nextService, .active⟩).setRegistry r
      (hg.enlist b name w.registrations.size)
    rw [ht.registrations] at hnext
    split
    · exact parallel_place hnext _
    · exact parallel_finish hnext _

theorem parallel_report (ht : w.Twin w') (hg : g.Twin g') (r : Nat) (h : Handle) (old : Properties) (reply : Reply α) :
    Parallel (w.report r g h old reply) (w'.report r g' h old reply) := by
  unfold report
  rw [hg.hasSink]
  split
  · exact parallel_place ht _
  · exact parallel_finish ht _

theorem parallel_setProperties (ht : w.Twin w') (hg : g.Twin g') (r : Nat) (h : Handle) (p : Properties) :
    Parallel (w.setProperties r g h p) (w'.setProperties r g' h p) := by
  unfold setProperties
  rw [ht.registration?]
  split
  · exact parallel_finish ht _
  · rw [hg.isIndexed]
    split
    · exact (parallel_report (ht.updateRegistration h _) hg r h _ _).after _
    · exact parallel_finish ht _

/-! ## Withdrawal -/

theorem Twin.retire? (ht : w.Twin w') (hg : g.Twin g') (r : Nat) (h : Handle) :
    (w.retire? r g h = none ∧ w'.retire? r g' h = none) ∨
      ∃ v v', w.retire? r g h = some v ∧ w'.retire? r g' h = some v' ∧ v.Twin v' := by
  simp only [World.retire?, ht.registration?]
  cases w.registration? h with
  | none => exact Or.inl ⟨rfl, rfl⟩
  | some x =>
    simp only [hg.isIndexed, ht.isActive]
    split
    · exact Or.inr ⟨_, _, rfl, rfl, (ht.setPhase h _).setRegistry r (hg.unlist x.bundle h)⟩
    · exact Or.inl ⟨rfl, rfl⟩

theorem parallel_withdrawal (ht : w.Twin w') (hg : g.Twin g') (r : Nat) (h : Handle) :
    Parallel (w.withdrawal r g h) (w'.withdrawal r g' h) := by
  rw [withdrawal, withdrawal, hg.hasSink]
  exact (parallel_place ht _).after _

theorem parallel_unregister (ht : w.Twin w') (hg : g.Twin g') (r : Nat) (b : BundleId) (h : Handle) :
    Parallel (w.unregister r g b h) (w'.unregister r g' b h) := by
  unfold unregister
  rw [ht.registration?]
  split
  · exact parallel_finish ht _
  · split
    · unfold withdraw
      rcases ht.retire? hg r h with ⟨hnone, hnone'⟩ | ⟨v, v', hsome, hsome', hv⟩
      · rw [hnone, hnone']
        exact (parallel_finish ht _).after _
      · rw [hsome, hsome']
        exact parallel_withdrawal hv hg r h
    · exact parallel_finish ht _

theorem parallel_unregisterNext (ht : w.Twin w') (hg : g.Twin g') (r : Nat) (snapshot : List Handle) (n : Nat)
    (rest : List Handle) : Parallel (w.unregisterNext r g snapshot n rest) (w'.unregisterNext r g' snapshot n rest) := by
  cases rest with
  | nil => exact parallel_finish ht (.count n)
  | cons h rest =>
    simp only [unregisterNext]
    rcases ht.retire? hg r h with ⟨hnone, hnone'⟩ | ⟨v, v', hsome, hsome', hv⟩
    · rw [hnone, hnone']
      exact (parallel_place ht _).after _
    · rw [hsome, hsome']
      have hplaced := parallel_place hv (.unregistering r snapshot rest (n + 1))
      simp only
      rw [hplaced.told]
      exact (parallel_withdrawal hplaced.world hg r h).after _

/-- A drain takes back as much, but the objects are due in an order of its own. -/
theorem drain_twin (ht : w.Twin w') (hg : g.Twin g') (r : Nat) (h : Handle) :
    ∃ (n : Nat) (due due' : List (BundleId × α)) (v v' : World α), due'.Perm due ∧ v.Twin v' ∧
      w.drain r g h = after [.drained r h n] (v.place (.releasing r h due .withdrawn)) ∧
      w'.drain r g' h = after [.drained r h n] (v'.place (.releasing r h due' .withdrawn)) := by
  obtain ⟨huses, hobjects, hledger⟩ := hg.ledger.drain h
  have hnext := (ht.setRegistry r (hg.setLedger hledger)).setPhase h .invalid
  refine ⟨(g.ledger.drain h).uses, _, _, _, _, ?_, hnext, rfl, by rw [← huses]; rfl⟩
  rw [hnext.isFactory]
  split
  · exact hobjects
  · exact List.Perm.refl _

/-! ## Consumers -/

theorem parallel_get (ht : w.Twin w') (hg : g.Twin g') (r : Nat) (b : BundleId) (ref : Reference) :
    Parallel (w.get r g b ref) (w'.get r g' b ref) := by
  cases hx : w.behind? ref with
  | none =>
    rw [get_of_invalid w r g b hx, get_of_invalid w' r g' b (ht.behind? ▸ hx)]
    exact parallel_finish ht _
  | some x =>
    obtain ⟨cached, l, l', hacquire, hacquire', hledger⟩ := hg.ledger.acquire b ref
    rw [get_of_valid w r g b hx, get_of_valid w' r g' b (ht.behind? ▸ hx), hacquire, hacquire']
    exact (parallel_place (ht.setRegistry r (hg.setLedger hledger)) _).after _

/-- The final section of a `get` decides the same. -/
theorem Twin.settlement (ht : w.Twin w') (hg : g.Twin g') (h : Handle) (b : BundleId) (ref : Reference) (fresh : Bool)
    (o : Option α) :
    (w'.settlement g' h b ref fresh o).object = (w.settlement g h b ref fresh o).object ∧
      (w'.settlement g' h b ref fresh o).due = (w.settlement g h b ref fresh o).due ∧
      (w.settlement g h b ref fresh o).ledger.Twin (w'.settlement g' h b ref fresh o).ledger := by
  obtain ⟨released, k, k', hrelease, hrelease', hk⟩ := hg.ledger.release b ref.id (!w.isValid h)
  simp only [World.settlement, ht.isValid]
  split
  · exact ⟨rfl, rfl, hg.ledger⟩
  · rename_i o _
    obtain ⟨stored, l, l', hstore, hstore', hl⟩ := hg.ledger.store b ref.id o
    simp only [hstore, hstore']
    cases stored <;> exact ⟨rfl, rfl, hl⟩
  · simp only [hrelease, hrelease']
    cases released <;> exact ⟨rfl, rfl, hk⟩

theorem parallel_settle (ht : w.Twin w') (hg : g.Twin g') (r : Nat) (h : Handle) (b : BundleId) (ref : Reference)
    (fresh : Bool) (o : Option α) : Parallel (w.settle r g h b ref fresh o) (w'.settle r g' h b ref fresh o) := by
  obtain ⟨hobject, hdue, hledger⟩ := ht.settlement hg h b ref fresh o
  simp only [settle, hobject, hdue]
  exact (parallel_release (ht.setRegistry r (hg.setLedger hledger)) r h _ _).after _

theorem Twin.ungetOne (ht : w.Twin w') (hg : g.Twin g') (r : Nat) (b : BundleId) (ref : Reference) :
    ∃ found back v v' os, w.ungetOne r g b ref = (found, back, v, os) ∧ w'.ungetOne r g' b ref = (found, back, v', os) ∧
      v.Twin v' := by
  obtain ⟨released, l, l', hrelease, hrelease', hledger⟩ := hg.ledger.release b ref.id (!w.isValid ref.target)
  have hnext := ht.setRegistry r (hg.setLedger hledger)
  simp only [World.ungetOne, ht.isAlive, ht.isValid, ht.isFactory, hrelease, hrelease']
  cases released with
  | notFound => exact ⟨_, _, _, _, _, rfl, rfl, ht⟩
  | decremented left => exact ⟨_, _, _, _, _, rfl, rfl, hnext⟩
  | flushed cached => exact ⟨_, _, _, _, _, rfl, rfl, hnext⟩

theorem parallel_unget (ht : w.Twin w') (hg : g.Twin g') (r : Nat) (b : BundleId) (ref : Reference) :
    Parallel (w.unget r g b ref) (w'.unget r g' b ref) := by
  obtain ⟨found, back, v, v', os, hone, hone', hv⟩ := ht.ungetOne hg r b ref
  simp only [unget, hone, hone']
  cases back with
  | none => exact (parallel_finish hv _).after _
  | some o => exact (parallel_release hv r ref.target _ _).after _

theorem parallel_ungetNext (ht : w.Twin w') (hg : g.Twin g') (r : Nat) (b : BundleId) (rest : List Reference) :
    Parallel (w.ungetNext r g b rest) (w'.ungetNext r g' b rest) := by
  cases rest with
  | nil => exact parallel_finish ht .done
  | cons ref rest =>
    obtain ⟨found, back, v, v', os, hone, hone', hv⟩ := ht.ungetOne hg r b ref
    simp only [ungetNext, hone, hone']
    cases back with
    | none => exact (parallel_place hv _).after _
    | some o =>
      have hplaced := parallel_place hv (.ungetting r b (ref :: rest))
      exact (parallel_release hplaced.world r ref.target _ _).after _

/-! ## Every move -/

theorem parallel_call (ht : w.Twin w') (hg : g.Twin g') (hc : w.Catalogued) (hr : w.registries[r]? = some g)
    {op : Operation α} (hop : op.isTabular = false) : Parallel (w.call r g op) (w'.call r g' op) := by
  cases op with
  | register b name source p => exact parallel_register ht hg r b name source p
  | unregister b h => exact parallel_unregister ht hg r b h
  | unregisterAll b =>
    rw [call, call, hg.owned]
    exact parallel_place ht _
  | find name filtered => cases hop
  | findOne name => exact parallel_findOne ht hg hc hr name
  | registered b =>
    rw [call, call, hg.owned, ht.isValid]
    exact parallel_returnAll ht r _
  | hooks =>
    rw [call, call, hg.hooks]
    exact parallel_returnAll ht r _
  | inUse b =>
    rw [call, call, hg.ledger.references]
    exact parallel_finish ht _
  | users ref => cases hop
  | usage b ref =>
    rw [call, call, hg.ledger.count?]
    exact parallel_finish ht _
  | count =>
    rw [call, call, ht.registrationCount hg]
    exact parallel_finish ht _
  | get b ref => exact parallel_get ht hg r b ref
  | unget b ref => exact parallel_unget ht hg r b ref
  | ungetAll b =>
    rw [call, call, hg.ledger.references]
    exact parallel_place ht _
  | setProperties h p => exact parallel_setProperties ht hg r h p
  | modified h old => exact parallel_report ht hg r h old .done

theorem parallel_resume? (ht : w.Twin w') {a : Answer α} (hout : w.resume? f a = some out) :
    ∃ out', w'.resume? f a = some out' ∧ Parallel out out' := by
  cases resumes_of hout with
  | announced => exact ⟨_, rfl, parallel_finish ht _⟩
  | reported => exact ⟨_, rfl, parallel_finish ht _⟩
  | told => exact ⟨_, rfl, parallel_place ht _⟩
  | rejected => exact ⟨_, rfl, parallel_filterNext ht _ _ _⟩
  | accepted r h p rest found => exact ⟨_, rfl, parallel_picked ht r h found rest⟩
  | supplied => exact ⟨_, rfl, parallel_place ht _⟩
  | handed => exact ⟨_, rfl, parallel_place ht _⟩

/-- All that goes on by itself, but for a drain. -/
theorem parallel_advance? (ht : w.Twin w') (hf : ∀ r h, f ≠ .draining r h) (hout : w.advance? f = some out) :
    ∃ out', w'.advance? f = some out' ∧ Parallel out out' := by
  cases advances_of hout with
  | drains hr h => exact absurd rfl (hf _ h)
  | @settles r g hr h b ref fresh o =>
    obtain ⟨g', hr', hg⟩ := ht.registries r g hr
    exact ⟨_, by rw [advance?, hr']; rfl, parallel_settle ht hg r h b ref fresh o⟩
  | concludes r h e => exact ⟨_, rfl, parallel_conclude ht r h e⟩
  | @ungets r g hr b rest =>
    obtain ⟨g', hr', hg⟩ := ht.registries r g hr
    exact ⟨_, by rw [advance?, hr']; rfl, parallel_ungetNext ht hg r b rest⟩
  | @unregisters r g hr snapshot rest n =>
    obtain ⟨g', hr', hg⟩ := ht.registries r g hr
    exact ⟨_, by rw [advance?, hr']; rfl, parallel_unregisterNext ht hg r snapshot n rest⟩

/-- What a client may call in the one world it may call in the other, given the references there, too. -/
theorem Twin.allows (ht : w.Twin w') {op : Operation α} (hrefs : ∀ ref ∈ op.refs, w'.knows ref = true)
    (hallows : w.allows op = true) : w'.allows op = true := by
  cases op with
  | unregister b h => exact (congrFun ht.isAlive h).trans hallows
  | setProperties h p => exact (congrFun ht.isAlive h).trans hallows
  | modified h old => exact (congrFun ht.isAlive h).trans hallows
  | users ref => exact hrefs ref (List.mem_singleton.mpr rfl)
  | usage b ref => exact hrefs ref (List.mem_singleton.mpr rfl)
  | get b ref => exact hrefs ref (List.mem_singleton.mpr rfl)
  | unget b ref => exact hrefs ref (List.mem_singleton.mpr rfl)
  | _ => rfl

end World

end Switchboard
