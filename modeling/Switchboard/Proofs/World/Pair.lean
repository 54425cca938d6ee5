/-
  Switchboard.Proofs.World.Pair — what a step does to one pair of a bundle and a reference.

  In a world of one registry a step counts a use of the pair, brings a `get` of it closer to its
  decision, gives a use back, takes the entry away, or leaves the pair alone (`PairStep`). The
  reference has to be the only one of its id there, for entries are told apart by the id. Every
  step is one of these (`pair_step`), so a property of one entry is a case analysis on them.

  An entry never changes the object it caches while it is there, and what a `get` is granted is
  what the entry caches from then on (`PairStep.steady`).
-/

import Switchboard.Proofs.World.Grants

namespace Switchboard

variable {α : Type} {b : BundleId} {ref : Reference}

namespace World

variable {w v : World α} {g g' : Registry α} {top : Option (Frame α)} {out : Outcome α} {os : List (Occurrence α)}

def handOver (v : World α) (b : BundleId) (ref : Reference) (e : Settlement α) : Frame α :=
  .releasing 0 ref.target (v.dueTo ref.target (e.due.map (b, ·))) (.got b ref e.object)

/-- From the world `v` below the innermost operation and the registry `g` to what a step makes of them, as far
    as the pair goes. -/
inductive PairStep (v : World α) (g g' : Registry α) (b : BundleId) (ref : Reference) : Option (Frame α) → Outcome α → Prop
  | elsewhere {top : Option (Frame α)} {out : Outcome α} {p : List (Frame α)} (htop : gets top.toList b ref = 0)
      (hstack : out.1.stack = p ++ v.stack) (hp : gets p b ref = 0)
      (hsame : g'.ledger.usage? b ref.id = g.ledger.usage? b ref.id) (hsilent : Silent out.2 b ref) :
      PairStep v g g' b ref top out
  | acquire {out : Outcome α} {x : Registration α} {f : Frame α} (hx : v.behind? ref = some x)
      (hf : f = fetch 0 b ref ((g.ledger.usage? b ref.id).bind (·.object)) x.source)
      (hstack : out.1.stack = f :: v.stack)
      (hafter : g'.ledger.usage? b ref.id = some (Ledger.usedBy ref (g.ledger.usage? b ref.id)))
      (hos : gist out.2 = .acquired 0 b ref :: gist f.asks) : PairStep v g g' b ref none out
  | supplied {out : Outcome α} {r : Nat} (o : Option α)
      (hstack : out.1.stack = .settling r ref.target b ref true o :: v.stack)
      (hsame : g'.ledger.usage? b ref.id = g.ledger.usage? b ref.id)
      (hos : gist out.2 = [.answered (.supply ref.target b) (.supplied o)]) :
      PairStep v g g' b ref (some (.resolving r ref.target b ref)) out
  | settle {out : Outcome α} {fresh : Bool} {o : Option α} {e : Settlement α}
      (hs : Settles g.ledger b ref.id (v.isValid ref.target) fresh o e)
      (hcached : fresh = false → ∃ u x, g.ledger.usage? b ref.id = some u ∧ u.object = some x ∧ o = some x)
      (hledger : g'.ledger = e.ledger) (hstack : out.1.stack = v.handOver b ref e :: v.stack)
      (hos : gist out.2 = .decided 0 b ref e.object :: gist (v.handOver b ref e).asks) :
      PairStep v g g' b ref (some (.settling 0 ref.target b ref fresh o)) out
  | decrement {top : Option (Frame α)} {out : Outcome α} {p : List (Frame α)} {u : Usage α} {left : Nat}
      (htop : gets top.toList b ref = 0) (hstack : out.1.stack = p ++ v.stack) (hp : gets p b ref = 0)
      (hu : g.ledger.usage? b ref.id = some u) (hmany : 1 < u.count)
      (hafter : g'.ledger.usage? b ref.id = some { u with count := u.count - 1 })
      (hos : gist out.2 = [.released 0 b ref left]) : PairStep v g g' b ref top out
  | flush {top : Option (Frame α)} {out : Outcome α} {p : List (Frame α)} {u : Usage α} (k : Option (Frame α))
      (htop : gets top.toList b ref = 0)
      (hk : k = (u.object.filter fun _ => v.isFactory ref.target).map fun x => .releasing 0 ref.target [(b, x)] .ungot)
      (hstack : out.1.stack = k.toList ++ p ++ v.stack) (hp : gets p b ref = 0)
      (hu : g.ledger.usage? b ref.id = some u) (hlast : u.count ≤ 1) (hafter : g'.ledger.usage? b ref.id = none)
      (hos : gist out.2 = .flushed 0 b ref :: gist (k.toList.flatMap Frame.asks)) : PairStep v g g' b ref top out
  | drain {out : Outcome α} {f : Frame α} {n : Nat}
      (hf : f = .releasing 0 ref.target (v.dueTo ref.target (g.ledger.drain ref.target).objects) .withdrawn)
      (hstack : out.1.stack = f :: v.stack) (hafter : g'.ledger.usage? b ref.id = none)
      (hos : gist out.2 = .drained 0 ref.target n :: gist f.asks) (hinvalid : out.1.phase? ref.target = some .invalid) :
      PairStep v g g' b ref (some (.draining 0 ref.target)) out

/-- A drain leaves no entry for what it is about, and the others alone. -/
theorem usage?_drained (hg : g.Sound) (honly : IsOnly g ref) (t : Handle) :
    (g.ledger.drain t).ledger.usage? b ref.id = if ref.target = t then none else g.ledger.usage? b ref.id := by
  have href : ∀ u, g.ledger.usage? b ref.id = some u → u.reference = ref := by
    intro u hu
    obtain ⟨hmem, hid⟩ := Ledger.mem_of_usage? hu
    exact honly _ (hg.known b u hmem) hid
  split
  case isTrue ht =>
    rw [Ledger.usage?_eq, Ledger.usages_drain hg.ledger, List.find?_eq_none]
    intro u hu hid
    obtain ⟨hmem, htarget⟩ := List.mem_filter.mp hu
    have hentry := Ledger.usage?_of_mem hg.ledger hmem
    rw [beq_iff_eq.mp hid] at hentry
    rw [href u hentry, ht] at htarget
    simp at htarget
  case isFalse ht =>
    refine Ledger.usage?_drain hg.ledger t fun u hu => ?_
    rw [href u hu]
    exact ht

theorem pair_step (hst : Standing (v.onto top) g) (hs : Step v top out) (hst' : Standing out.1 g')
    (honly : IsOnly g ref) : PairStep v g g' b ref top out := by
  have hsole : v.registries = #[g] := hst.sole
  have hloops : ∀ {f : Option (Frame α)}, v.Under top f → gets f.toList b ref = 0 :=
    fun hf => gets_loop (fun k hk => (hf k hk).1) b ref
  cases hs with
  | idle htop hi =>
    obtain ⟨k, hk, hm⟩ := sole_alike hsole hi.alike
    obtain rfl := hst'.eq hk
    obtain ⟨f, hf, haside⟩ := hi.stack
    have hledger : k.ledger = g.ledger := by rw [hm.eq]
    exact .elsewhere (gets_aside htop b ref) hf (gets_aside (fun k hk => (haside k hk).1) b ref) (by rw [hledger])
      (silent_of_quiet hi.quiet)
  | @publish r k c name source p held f os' hg hf hos =>
    obtain ⟨rfl, rfl⟩ := sole_get hsole hg
    obtain rfl := sole_eq hsole hst'.sole
    have haside : ∀ k ∈ f, k.isAside := fun k hk => by rw [hf k hk]; rfl
    exact .elsewhere rfl rfl (gets_aside haside b ref) rfl (silent_of_quiet hos)
  | @retire top f r k t x os' htop hf hg hx hindexed hactive hos =>
    obtain ⟨rfl, rfl⟩ := sole_get hsole hg
    obtain rfl := sole_eq hsole hst'.sole
    have hleaf : (if k.hasSink then .withdrawing 0 t else .draining 0 t : Frame α).getting? = none := by split <;> rfl
    refine .elsewhere (p := _ :: f.toList) (gets_loop htop b ref) rfl ?_ rfl (silent_of_alone hos rfl)
    rw [← List.singleton_append, gets_append, gets_single_none hleaf, hloops hf]
  | notified hos =>
    obtain rfl := hst'.eq hsole
    exact .elsewhere (p := [_]) rfl rfl rfl rfl (silent_of_quiet hos)
  | @drain r k t os' f hg hf hos =>
    obtain ⟨rfl, rfl⟩ := sole_get hsole hg
    obtain rfl := sole_eq hsole hst'.sole
    have hafter := usage?_drained (b := b) hst.sound honly t
    -- A pair whose registration is not the drained one keeps its entry.
    by_cases ht : t = ref.target
    · subst ht
      rw [if_pos rfl] at hafter
      exact .drain hf rfl hafter hos hst.phase_drained
    · rw [if_neg (Ne.symm ht)] at hafter
      refine .elsewhere (p := [f]) rfl rfl (gets_single_none ?_) hafter (silent_of_told hos ?_ (silent_asks f))
      · rw [hf]
        rfl
      · simpa [Occurrence.concerns] using ht
  | @acquire r k c q x os' f hg hknown hx hf hos =>
    obtain ⟨rfl, rfl⟩ := sole_get hsole hg
    obtain rfl := sole_eq hsole hst'.sole
    rw [knows_sole hsole] at hknown
    have hget : f.getting? = some (q.target, c, q) := by rw [hf, getting?_fetch]
    by_cases hpair : c = b ∧ q = ref
    · obtain ⟨rfl, rfl⟩ := hpair
      exact .acquire hx hf rfl (Ledger.edit_acquire hst.sound.ledger c q).usage?_after hos
    · have hsame := (Ledger.edit_acquire hst.sound.ledger c q).usage?_of_ne (pair_ne_of_only honly hknown hpair)
      refine .elsewhere (p := [f]) rfl rfl (gets_single_of_ne hget hpair) hsame (silent_of_told hos ?_ (silent_asks f))
      simpa [Occurrence.concerns] using hpair
  | @supplied r t c q os' o hos =>
    obtain rfl := hst'.eq hsole
    obtain ⟨rfl, -⟩ := hst.getting _ (List.mem_cons_self ..) _ _ _ rfl
    by_cases hpair : c = b ∧ q = ref
    · obtain ⟨rfl, rfl⟩ := hpair
      exact .supplied o rfl rfl hos
    · exact .elsewhere (p := [_]) (gets_single_of_ne rfl hpair) rfl (gets_single_of_ne rfl hpair) rfl
        (silent_of_alone hos rfl)
  | @settle r k t c q fresh o os' e f hg he hf hos =>
    obtain ⟨rfl, rfl⟩ := sole_get hsole hg
    obtain rfl := sole_eq hsole hst'.sole
    obtain ⟨rfl, -⟩ := hst.getting _ (List.mem_cons_self ..) _ _ _ rfl
    have hknown : k.knows q = true := hst.refs _ (List.mem_cons_self ..) q (List.mem_singleton.mpr rfl)
    have hsettles := settles_of_eq hst.sound.ledger he
    by_cases hpair : c = b ∧ q = ref
    · obtain ⟨rfl, rfl⟩ := hpair
      subst hf
      refine .settle hsettles (fun hfresh => ?_) rfl rfl hos
      subst hfresh
      exact hst.settled 0 q.target c q o v.stack rfl
    · refine .elsewhere (p := [f]) (gets_single_of_ne rfl hpair) rfl (gets_single_none (by rw [hf]; rfl))
        (hsettles.usage?_of_ne (pair_ne_of_only honly hknown hpair)) (silent_of_told hos ?_ (silent_asks f))
      simpa [Occurrence.concerns] using hpair
  | @decrement top f r k c q left ledger os' htop hf hg hknown hrel hos =>
    obtain ⟨rfl, rfl⟩ := sole_get hsole hg
    obtain rfl := sole_eq hsole hst'.sole
    obtain ⟨u, -, hmany, -, -, he⟩ := Ledger.release_decremented hst.sound.ledger hrel
    by_cases hpair : c = b ∧ q = ref
    · obtain ⟨rfl, rfl⟩ := hpair
      exact .decrement (gets_loop htop c q) rfl (hloops hf) he.usage?_before hmany he.usage?_after hos
    · refine .elsewhere (gets_loop htop b ref) rfl (hloops hf)
        (he.usage?_of_ne (pair_ne_of_only honly (hst.knows_of_release hknown) hpair)) (silent_of_alone hos ?_)
      simpa [Occurrence.concerns] using hpair
  | @flush top f r k c q cached ledger os' back htop hf hg hknown hrel hkeep hos =>
    obtain ⟨rfl, rfl⟩ := sole_get hsole hg
    obtain rfl := sole_eq hsole hst'.sole
    obtain ⟨u, hlast, hcached, -, he⟩ := Ledger.release_flushed hst.sound.ledger hrel
    have hknown' := hst.knows_of_release hknown
    by_cases hpair : c = b ∧ q = ref
    · obtain ⟨rfl, rfl⟩ := hpair
      -- While there is an entry the registration is valid, so this was the last use.
      have hvalid : v.isValid q.target = true := by
        rw [← hst.sound.reference_eq hknown' he.usage?_before]
        exact hst.valid_before he
      rw [hvalid] at hlast
      refine .flush back (gets_loop htop c q) ?_ (List.append_assoc ..).symm (hloops hf) he.usage?_before
        (hlast.resolve_left (by simp)) he.usage?_after hos
      rw [hkeep, hcached, hst.isAlive htop hvalid]
      rfl
    · have hstack : (((v.setRegistry 0 { k with ledger := ledger }).onto f).onto back).stack =
          (back.toList ++ f.toList) ++ v.stack := (List.append_assoc ..).symm
      refine .elsewhere (gets_loop htop b ref) hstack ?_
        (he.usage?_of_ne (pair_ne_of_only honly hknown' hpair)) (silent_of_told hos ?_ (silent_back back))
      · rw [gets_append, hloops hf, Nat.add_zero, hkeep]
        cases cached.filter fun _ => v.isAlive q.target && v.isFactory q.target <;> rfl
      · simpa [Occurrence.concerns] using hpair
  | @handed r t p due e os' hos =>
    obtain rfl := hst'.eq hsole
    refine .elsewhere (p := [_]) rfl rfl rfl rfl ?_
    rw [← silent_gist, hos]
    exact silent_gist.mpr (silent_asks _)

theorem pair_of_play {m : Move α} (hst : Standing w g) (hplay : w.play m = some out) (hst' : Standing out.1 g')
    (honly : IsOnly g ref) : ∃ v top, w = v.onto top ∧ (top = none → w.isClientsTurn = true) ∧ PairStep v g g' b ref top out := by
  obtain ⟨v, top, rfl, hturn, hs⟩ := play_step hplay
  exact ⟨v, top, rfl, hturn, pair_step hst hs hst' honly⟩

/-- An operation that is ready to go on is innermost, and is what goes on. -/
theorem top_of_ready (hturn : top = none → (v.onto top).isClientsTurn = true) {f : Frame α} {fs : List (Frame α)}
    (hstack : (v.onto top).stack = f :: fs) (hready : f.question? = none) : top = some f ∧ v.stack = fs := by
  cases top with
  | none =>
    have hclient := hturn rfl
    rw [isClientsTurn, pending?, hstack, List.head?_cons, Option.bind_some, hready] at hclient
    cases hclient
  | some k =>
    obtain ⟨rfl, hbelow⟩ := List.cons.inj hstack
    exact ⟨rfl, hbelow⟩

/-- From what an entry was, none or the first, to what it is: what it cached stays cached, and what was given
    meanwhile is what it caches. -/
structure Steady (u : Option (Usage α)) (u' : Usage α) (given : List α) : Prop where
  kept : ∀ x, u.bind (·.object) = some x → u'.object = some x
  given : ∀ x ∈ given, u'.object = some x

theorem Steady.nothing {u : Option (Usage α)} {u' : Usage α} (hobject : u.bind (·.object) = u'.object) :
    Steady u u' [] :=
  ⟨fun _ hx => hobject ▸ hx, fun _ hx => by cases hx⟩

theorem Steady.one {u : Option (Usage α)} {u' : Usage α} {x : α} (hx : u'.object = some x)
    (hu : ∀ y, u.bind (·.object) = some y → y = x) : Steady u u' [x] := by
  refine ⟨fun y hy => ?_, fun y hy => ?_⟩
  · rw [hu y hy]
    exact hx
  · rw [List.mem_singleton.mp hy]
    exact hx

/-- A decision that leaves an entry grants what it caches, or nothing. -/
theorem steady_settle {l : Ledger α} {id : Nat} {valid fresh : Bool} {o : Option α} {e : Settlement α}
    (hs : Settles l b id valid fresh o e)
    (hcached : fresh = false → ∃ u x, l.usage? b id = some u ∧ u.object = some x ∧ o = some x) {u' : Usage α}
    (hu' : e.ledger.usage? b id = some u') : Steady (l.usage? b id) u' e.object.toList := by
  cases hs with
  | cached _ hfresh ho =>
    obtain ⟨u, x, hu, hx, hox⟩ := hcached hfresh
    obtain rfl := Option.some.inj (hu.symm.trans hu')
    obtain rfl := Option.some.inj (ho.symm.trans hox)
    rw [hu]
    exact .one hx fun y hy => Option.some.inj (hy.symm.trans hx)
  | missing _ _ _ hnone => cases hnone.symm.trans hu'
  | existing _ _ _ hu hc =>
    obtain rfl := Option.some.inj (hu.symm.trans hu')
    rw [hu]
    exact .one hc fun y hy => Option.some.inj (hy.symm.trans hc)
  | kept _ _ _ hnone _ he =>
    obtain rfl := Option.some.inj (he.usage?_after.symm.trans hu')
    rw [he.usage?_before]
    exact .one rfl fun y hy => by cases hnone.symm.trans hy
  | lost _ hnone => cases hnone.symm.trans hu'
  | spent _ _ _ _ he =>
    obtain rfl := Option.some.inj (he.usage?_after.symm.trans hu')
    rw [he.usage?_before]
    exact .nothing rfl
  | dropped _ _ _ he => cases he.usage?_after.symm.trans hu'

theorem PairStep.steady (hp : PairStep v g g' b ref top out) {u' : Usage α}
    (hu' : g'.ledger.usage? b ref.id = some u') : Steady (g.ledger.usage? b ref.id) u' (grants out.2 b ref) := by
  cases hp with
  | elsewhere _ _ _ hsame hsilent =>
    rw [hsilent.grants, ← hsame, hu']
    exact .nothing rfl
  | acquire _ _ _ hafter hos =>
    obtain rfl := Option.some.inj (hafter.symm.trans hu')
    rw [(told_asks b ref hos).1]
    refine .nothing ?_
    cases g.ledger.usage? b ref.id <;> rfl
  | supplied o _ hsame hos =>
    rw [(told_alone b ref hos).1, ← hsame, hu']
    exact .nothing rfl
  | @settle _ fresh o e hs hcached hledger _ hos =>
    have hgrants : grants out.2 b ref = e.object.toList := by
      rw [(told_asks b ref hos).1]
      simp [Occurrence.granted?]
    rw [hgrants]
    exact steady_settle hs hcached (hledger ▸ hu')
  | decrement _ _ _ hu _ hafter hos =>
    obtain rfl := Option.some.inj (hafter.symm.trans hu')
    rw [(told_alone b ref hos).1, hu]
    exact .nothing rfl
  | flush _ _ _ _ _ _ _ hafter => cases hafter.symm.trans hu'
  | drain _ _ hafter => cases hafter.symm.trans hu'

end World

end Switchboard
