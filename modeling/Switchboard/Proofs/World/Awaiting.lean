/-
  Switchboard.Proofs.World.Awaiting — entries without an object, however many registries there are.

  In every world every entry counts a use, and an entry that caches nothing counts no more uses
  than there are gets in flight that may still cache an object for the pair at that registry
  (`Covered`). For a `get` that finds nothing cached adds one to both, and it leaves with an
  object cached or with a use given up (`covered_step`).

  Where nothing is called while a factory is asked, such a `get` is only ever innermost
  (`patient_run`). So no entry is without an object when something is called
  (`resolvers_of_quiet`).
-/

import Switchboard.Proofs.World.Call
import Switchboard.Proofs.World.Provenance

namespace Switchboard

variable {α : Type}

def Question.toFactory : Question α → Bool
  | supply .. | takeBack .. => true
  | event .. | filter .. => false

namespace Frame

def isPatient (f : Frame α) : Bool := f.isLoop || f.question?.any (!·.toFactory)

/-- Is it a `get` of the pair at registry `r` that may still cache an object? -/
def resolves (r : Nat) (b : BundleId) (id : Nat) : Frame α → Bool
  | resolving s _ c ref | settling s _ c ref true _ => decide ((s, c, ref.id) = (r, b, id))
  | _ => false

theorem resolves_of_aside {f : Frame α} (hf : f.isAside) (r : Nat) (b : BundleId) (id : Nat) :
    f.resolves r b id = false := by
  cases f <;> first | rfl | cases hf

theorem resolves_of_patient {f : Frame α} (hf : f.isPatient) (r : Nat) (b : BundleId) (id : Nat) :
    f.resolves r b id = false := by
  cases f with
  | resolving => cases hf
  | settling => cases hf
  | _ => rfl

end Frame

namespace World

variable {w v : World α} {g k : Registry α} {top : Option (Frame α)} {out : Outcome α} {os : List (Occurrence α)}
  {r q : Nat} {b c : BundleId} {ref : Reference} {id : Nat} {u : Usage α} {p : List (Frame α)} {ms : List (Move α)}
  {m : Move α}

def resolvers (fs : List (Frame α)) (r : Nat) (b : BundleId) (id : Nat) : Nat := fs.countP (·.resolves r b id)

/-- Every entry counts a use, and while it caches nothing no more than there are gets in flight that may
    still cache an object. -/
def Covered (w : World α) : Prop :=
  ∀ (r : Nat) (g : Registry α), w.registries[r]? = some g → ∀ b id u, g.ledger.usage? b id = some u →
    0 < u.count ∧ (u.object = none → u.count ≤ resolvers w.stack r b id)

theorem resolvers_aside {o : Option (Frame α)} (ho : ∀ k ∈ o, k.isAside) (r : Nat) (b : BundleId) (id : Nat) :
    resolvers o.toList r b id = 0 :=
  countP_option fun k hk => Frame.resolves_of_aside (ho k hk) r b id

theorem resolvers_singleton (f : Frame α) (r : Nat) (b : BundleId) (id : Nat) :
    resolvers [f] r b id = if f.resolves r b id then 1 else 0 :=
  List.countP_singleton ..

/-! ## What a step does to an entry -/

inductive Kept (v : World α) (top : Option (Frame α)) (p : List (Frame α)) (q : Nat) (b : BundleId) (id : Nat)
    (u : Usage α) : Prop
  | went {k : Registry α} {u' : Usage α} (hk : v.registries[q]? = some k) (hu : k.ledger.usage? b id = some u')
      (hpos : 0 < u'.count → 0 < u.count)
      (hnone : u.object = none → u'.object = none ∧
        u.count + resolvers top.toList q b id ≤ u'.count + resolvers p q b id) : Kept v top p q b id u
  | made (hpos : 0 < u.count) (hnone : u.object = none → u.count ≤ resolvers p q b id) : Kept v top p q b id u

theorem Kept.same (hk : v.registries[q]? = some k) (hu : k.ledger.usage? b id = some u)
    (hle : resolvers top.toList q b id ≤ resolvers p q b id) : Kept v top p q b id u :=
  .went hk hu (fun hpos => hpos) fun hnone => ⟨hnone, Nat.add_le_add_left hle _⟩

/-- The entry of one pair was edited. -/
theorem Kept.of_edit {l : Ledger α} {j : Nat} {x y : Option (Usage α)} (hk : v.registries[q]? = some k)
    (he : k.ledger.Edit l c j x y) (hu : l.usage? b id = some u)
    (hother : (b, id) ≠ (c, j) → resolvers top.toList q b id ≤ resolvers p q b id)
    (hhere : y = some u → Kept v top p q c j u) : Kept v top p q b id u := by
  by_cases hpair : (b, id) = (c, j)
  · obtain ⟨rfl, rfl⟩ := Prod.mk.inj hpair
    exact hhere (he.usage?_after.symm.trans hu)
  · rw [he.usage?_of_ne hpair] at hu
    exact .same hk hu (hother hpair)

theorem Covered.next (hc : Covered (v.onto top)) (hstack : out.1.stack = p ++ v.stack)
    (hkept : ∀ (q : Nat) (k : Registry α) b id u, out.1.registries[q]? = some k → k.ledger.usage? b id = some u →
      Kept v top p q b id u) : Covered out.1 := by
  intro q k hk b id u hu
  have hcount : resolvers out.1.stack q b id = resolvers p q b id + resolvers v.stack q b id := by
    rw [hstack]
    exact List.countP_append
  rw [hcount]
  cases hkept q k b id u hk hu with
  | @went k' u' hk' hu' hpos hnone =>
    obtain ⟨hpos', hnone'⟩ := hc q k' hk' b id u' hu'
    refine ⟨hpos hpos', fun hobject => ?_⟩
    obtain ⟨hbefore, hle⟩ := hnone hobject
    have hcovered : u'.count ≤ resolvers top.toList q b id + resolvers v.stack q b id := by
      have h := hnone' hbefore
      rwa [resolvers, show (v.onto top).stack = top.toList ++ v.stack from rfl, List.countP_append] at h
    omega
  | made hpos hnone =>
    refine ⟨hpos, fun hobject => ?_⟩
    have := hnone hobject
    omega

/-- A step that touches one registry. -/
theorem Covered.set {g' : Registry α} (hc : Covered (v.onto top))
    (hset : out.1.registries = (v.setRegistry r g').registries) (hstack : out.1.stack = p ++ v.stack)
    (hhere : ∀ b id u, g'.ledger.usage? b id = some u → Kept v top p r b id u)
    (hother : ∀ q b id, q ≠ r → resolvers top.toList q b id ≤ resolvers p q b id) : Covered out.1 := by
  refine hc.next hstack fun q k b id u hk hu => ?_
  rw [hset] at hk
  rcases registry_setRegistry hk with ⟨rfl, rfl⟩ | ⟨hne, hk⟩
  · exact hhere b id u hu
  · exact .same hk hu (hother q b id hne)

/-! ## Every step -/

theorem resolvers_loop {o : Option (Frame α)} (ho : ∀ k ∈ o, k.isLoop) (r : Nat) (b : BundleId) (id : Nat) :
    resolvers o.toList r b id = 0 :=
  resolvers_aside (fun k hk => Frame.aside_of_loop (ho k hk)) r b id

theorem resolvers_loop_le {o : Option (Frame α)} (ho : ∀ k ∈ o, k.isLoop) (r : Nat) (b : BundleId) (id n : Nat) :
    resolvers o.toList r b id ≤ n := by
  rw [resolvers_loop ho]
  exact Nat.zero_le n

theorem resolvers_settling_le {s : Nat} {h : Handle} {fresh : Bool} {o : Option α} (hne : (s, c, ref.id) ≠ (r, b, id))
    (n : Nat) : resolvers (some (Frame.settling s h c ref fresh o)).toList r b id ≤ n := by
  have hother : (Frame.settling s h c ref fresh o).resolves r b id = false := by
    cases fresh with
    | false => rfl
    | true => exact decide_eq_false hne
  rw [Option.toList_some, resolvers_singleton, hother]
  exact Nat.zero_le n

theorem resolves_fetch (r : Nat) (b : BundleId) (ref : Reference) (source : Source α) :
    (fetch r b ref none source).resolves r b ref.id = true := by
  cases source <;> simp [fetch, Frame.resolves]

/-- A `get` counts its use, and it may still cache an object if it found none. -/
theorem kept_acquire {x : Registration α} (hg : v.registries[r]? = some g) (hl : g.ledger.Sound)
    (hu : (g.ledger.acquire c ref).2.usage? b id = some u) :
    Kept v none [fetch r c ref (g.ledger.acquire c ref).1 x.source] r b id u := by
  refine .of_edit hg (Ledger.edit_acquire hl c ref) hu (fun _ => Nat.zero_le _) fun hhere => ?_
  obtain rfl := Option.some.inj hhere
  have hfetch : (g.ledger.acquire c ref).1 = none →
      resolvers [fetch r c ref (g.ledger.acquire c ref).1 x.source] r c ref.id = 1 := by
    intro hnone
    rw [hnone, resolvers_singleton, if_pos (resolves_fetch r c ref x.source)]
  have hfound : (g.ledger.acquire c ref).1 = (g.ledger.usage? c ref.id).bind (·.object) := rfl
  cases hbefore : g.ledger.usage? c ref.id with
  | none =>
    refine .made Nat.zero_lt_one fun _ => ?_
    rw [hfetch (by rw [hfound, hbefore]; rfl)]
    exact Nat.le_refl _
  | some u' =>
    refine .went hg hbefore (fun _ => ?_) fun hnone => ⟨hnone, ?_⟩
    · show 0 < min (u'.count + 1) Ledger.countLimit
      exact Nat.lt_min.mpr ⟨Nat.succ_pos _, by decide⟩
    · rw [hfetch (by rw [hfound, hbefore]; exact hnone)]
      exact Nat.min_le_left ..

/-- A `get` that comes to its decision leaves an object cached or gives up a use. -/
theorem kept_settle {h : Handle} {valid fresh : Bool} {o : Option α} {e : Settlement α} {f : Frame α}
    (hg : v.registries[r]? = some g) (hs : Settles g.ledger c ref.id valid fresh o e)
    (hu : e.ledger.usage? b id = some u) : Kept v (some (.settling r h c ref fresh o)) [f] r b id u := by
  have hle : ∀ b id, resolvers (some (Frame.settling r h c ref fresh o)).toList r b id ≤ 1 := by
    intro b id
    rw [Option.toList_some, resolvers_singleton]
    split <;> omega
  by_cases hpair : (b, id) = (c, ref.id)
  case neg =>
    rw [hs.usage?_of_ne hpair] at hu
    refine .same hg hu (resolvers_settling_le (fun heq => hpair ?_) _)
    exact (congrArg Prod.snd heq).symm
  case pos =>
    obtain ⟨rfl, rfl⟩ := Prod.mk.inj hpair
    cases hs with
    | cached _ hfresh =>
      subst hfresh
      exact .same hg hu (Nat.zero_le _)
    | missing _ _ _ hnone => cases hnone.symm.trans hu
    | existing _ _ _ hu' hc =>
      obtain rfl := Option.some.inj (hu'.symm.trans hu)
      exact .went hg hu' (fun hpos => hpos) fun hnone => by cases hc.symm.trans hnone
    | kept _ _ _ _ _ he =>
      obtain rfl := Option.some.inj (he.usage?_after.symm.trans hu)
      exact .went hg he.usage?_before (fun hpos => hpos) fun hnone => by cases hnone
    | lost _ hnone => cases hnone.symm.trans hu
    | @spent u' _ _ _ hmany _ he =>
      obtain rfl := Option.some.inj (he.usage?_after.symm.trans hu)
      refine .went hg he.usage?_before (fun _ => ?_) fun hnone => ⟨hnone, ?_⟩
      · show 0 < u'.count - 1
        omega
      · have := hle b ref.id
        show u'.count - 1 + _ ≤ _
        omega
    | dropped _ _ _ he => cases he.usage?_after.symm.trans hu

theorem covered_step (hp : Provided (v.onto top) os) (hc : Covered (v.onto top)) (hs : Step v top out) :
    Covered out.1 := by
  have hsound : ∀ {r : Nat} {g : Registry α}, v.registries[r]? = some g → g.ledger.Sound := fun hg =>
    (hp.stocked _ _ hg).sound
  cases hs with
  | idle htop hi =>
    obtain ⟨f, hstack, -⟩ := hi.stack
    refine hc.next hstack fun q k b id u hk hu => ?_
    obtain ⟨k', hk', hm⟩ := hi.alike.registry_before hk
    rw [hm.eq] at hu
    refine .same hk' hu ?_
    rw [resolvers_aside htop]
    exact Nat.zero_le _
  | publish _ _ _ _ _ hg =>
    exact hc.set rfl rfl (fun b id u hu => .same hg hu (Nat.zero_le _)) fun q b id _ => Nat.zero_le _
  | retire htop hf hg =>
    exact hc.set (p := _ :: _) rfl rfl (fun b id u hu => .same hg hu (resolvers_loop_le htop ..)) fun q b id _ =>
      resolvers_loop_le htop ..
  | notified =>
    exact hc.next (p := [_]) rfl fun q k b id u hk hu => .same hk hu (Nat.zero_le _)
  | drain f hg =>
    refine hc.set (p := [_]) rfl rfl (fun b id u hu => ?_) fun q b id _ => Nat.zero_le _
    obtain ⟨hmem, rfl⟩ := Ledger.mem_of_usage? hu
    rw [Ledger.usages_drain (hsound hg)] at hmem
    exact .same hg (Ledger.usage?_of_mem (hsound hg) (List.mem_filter.mp hmem).1) (Nat.zero_le _)
  | acquire f hg _ _ hf =>
    subst hf
    exact hc.set (p := [_]) rfl rfl (fun b id u hu => kept_acquire hg (hsound hg) hu) fun q b id _ => Nat.zero_le _
  | supplied o =>
    exact hc.next (p := [_]) rfl fun q k b id u hk hu => .same hk hu (Nat.le_refl _)
  | @settle r g h c ref fresh o _ e f hg he =>
    -- The `get` that settles awaited its own pair and no other.
    refine hc.set (p := [_]) rfl rfl (fun b id u hu => kept_settle hg (settles_of_eq (hsound hg) he) hu) fun q b id hq =>
      resolvers_settling_le (fun heq => hq ?_) _
    exact (congrArg Prod.fst heq).symm
  | decrement htop hf hg _ hrel =>
    obtain ⟨u', -, hmany, -, -, he⟩ := Ledger.release_decremented (hsound hg) hrel
    refine hc.set rfl rfl (fun b id u hu => ?_) fun q b id _ => resolvers_loop_le htop ..
    refine .of_edit hg he hu (fun _ => resolvers_loop_le htop ..) fun hhere => ?_
    obtain rfl := Option.some.inj hhere
    refine .went hg he.usage?_before (fun _ => ?_) fun hnone => ⟨hnone, ?_⟩
    · show 0 < u'.count - 1
      omega
    · rw [resolvers_loop htop]
      show u'.count - 1 + 0 ≤ _
      omega
  | flush k htop hf hg _ hrel =>
    obtain ⟨u', -, -, -, he⟩ := Ledger.release_flushed (hsound hg) hrel
    refine hc.set (p := k.toList ++ _) rfl (List.append_assoc ..).symm (fun b id u hu => ?_) fun q b id _ =>
      resolvers_loop_le htop ..
    exact .of_edit hg he hu (fun _ => resolvers_loop_le htop ..) fun hhere => by cases hhere
  | handed =>
    exact hc.next (p := [_]) rfl fun q k b id u hk hu => .same hk hu (Nat.zero_le _)

theorem covered_start (setups : List (Config × Bool)) : Covered (start setups : World α) := by
  intro r g hg b id u hu
  obtain ⟨c, hasSink, -, rfl⟩ := registry_start hg
  rw [Ledger.usage?_eq, Registry.ofConfig, Ledger.usages_withCapacity] at hu
  cases hu

/-- In a reachable world, whatever has no object is being resolved, once for each use at least. -/
theorem covered_run {setups : List (Config × Bool)} (hrun : (start setups).run ms = some out) : Covered out.1 := by
  refine (run_induction (P := fun w os => Provided w os ∧ Covered w) ?_ ms _ [] out
    ⟨provided_start setups, covered_start setups⟩ hrun).2
  rintro w os m out ⟨hp, hc⟩ hplay
  obtain ⟨v, top, rfl, -, hs⟩ := play_step hplay
  exact ⟨provided_step hp hs, covered_step hp hc hs⟩

/-! ## Factories that call nothing -/

/-- After the moves `done`, none of `ms` is a call while a factory is asked. -/
def FactoriesQuiet (w : World α) (done ms : List (Move α)) : Prop :=
  ∀ l r op, l ++ [.call r op] <+: ms → ∀ o, w.run (done ++ l) = some o → ∀ q ∈ o.1.pending?, q.toFactory = false

theorem FactoriesQuiet.before {done ms' : List (Move α)} (hquiet : FactoriesQuiet w done ms') (hms : ms <+: ms') :
    FactoriesQuiet w done ms :=
  fun l r op hl => hquiet l r op (hl.trans hms)

/-- When the client has its turn and is not asked for a factory, what is innermost is patient too. -/
theorem patient_of_turn (htail : ∀ k ∈ w.stack.tail, k.isPatient) (hturn : w.isClientsTurn = true)
    (hasked : ∀ q ∈ w.pending?, q.toFactory = false) : ∀ k ∈ w.stack, k.isPatient := by
  intro k hk
  cases hs : w.stack with
  | nil =>
    rw [hs] at hk
    cases hk
  | cons f fs =>
    rw [hs] at hk htail
    rcases List.mem_cons.mp hk with rfl | hk
    · obtain ⟨q, hq, hpending⟩ := question_of_turn hturn hs
      rw [Frame.isPatient, hq, Option.any_some, hasked q hpending]
      exact Bool.or_true _
    · exact htail k hk

/-- What a step places on top of patient operations. -/
theorem patient_tail {fs : List (Frame α)} (hp : ∀ k ∈ p.tail, k.isLoop) (hfs : ∀ k ∈ fs, k.isPatient) :
    ∀ k ∈ (p ++ fs).tail, k.isPatient := by
  intro k hk
  cases p with
  | nil => exact hfs k (List.mem_of_mem_tail hk)
  | cons f p =>
    rcases List.mem_append.mp hk with hk | hk
    · rw [Frame.isPatient, hp k hk, Bool.true_or]
    · exact hfs k hk

/-- All but the innermost operation are patient. -/
theorem patient_run {w₀ : World α} (hrest : w₀.stack = []) (ms : List (Move α)) : ∀ out, w₀.run ms = some out →
    FactoriesQuiet w₀ [] ms → ∀ k ∈ out.1.stack.tail, k.isPatient := by
  induction ms using List.reverseRecOn with
  | nil =>
    intro out hrun _ k hk
    obtain rfl := Option.some.inj hrun
    rw [hrest] at hk
    cases hk
  | append_singleton ms m ih =>
    intro out hrun hquiet
    obtain ⟨mid, last, hmid, hplay, rfl⟩ := run_concat _ hrun
    have htail := ih mid hmid (hquiet.before (List.prefix_append ..))
    by_cases hcall : ∃ r op, m = .call r op
    · obtain ⟨r, op, rfl⟩ := hcall
      obtain ⟨hturn, hop, g, hg, rfl⟩ := calls_of_play hplay
      have hall := patient_of_turn htail hturn (hquiet ms r op (List.prefix_refl _) mid hmid)
      obtain ⟨p, hp, hloops⟩ := step_places (step_call mid.1 hg hop)
      show ∀ k ∈ (mid.1.call r g op).1.stack.tail, _
      rw [hp]
      exact patient_tail hloops hall
    · rcases play_callless (fun r op hm => hcall ⟨r, op, hm⟩) hplay with ⟨held, rfl⟩ | ⟨f, fs, hstack, hgo⟩
      · exact htail
      · obtain ⟨p, hp, hloops⟩ := step_places hgo.step
        rw [hstack] at htail
        show ∀ k ∈ last.1.stack.tail, _
        rw [hp]
        exact patient_tail hloops htail

/-- So nothing is being resolved when something is called. -/
theorem resolvers_of_quiet {setups : List (Config × Bool)} {op : Operation α}
    (hrun : (start setups).run ms = some (w, os)) (hturn : w.isClientsTurn = true)
    (hquiet : FactoriesQuiet (start setups) [] (ms ++ [.call r op])) (q : Nat) (b : BundleId) (id : Nat) :
    resolvers w.stack q b id = 0 := by
  have htail := patient_run rfl ms _ hrun (hquiet.before (List.prefix_append ..))
  have hall := patient_of_turn htail hturn (hquiet ms r op (List.prefix_refl _) _ hrun)
  rw [resolvers, List.countP_eq_zero]
  intro k hk
  rw [Frame.resolves_of_patient (hall k hk)]
  exact Bool.false_ne_true

end World

end Switchboard
