/-
  Switchboard.Proofs.World.Accounting — what a usage count counts.

  Take a bundle and a reference whose registration was not drained. Its gets that were granted
  an object, less the uses given back, and its gets that have not come to their decision: that is
  the count of its entry, and there is no entry when it is zero. As long as more was granted than
  was given back, the entry caches the object that was granted last (`uses_accounted`).

  This asks of the consumers that they never give back more than they were granted, and of the
  count that it stays within its limit (`Fair`). Then a `get` that fails gives up its own use and
  nobody else's: it is one of those in flight, so an entry that others hold has at least two uses
  and stays.

  A use counts as given back from the section of the `unget` that finds it. The call itself
  returns only after the factory has the object, and until then it has not returned true while
  the use is gone (`unget_returns_late`).
-/

import Mathlib.Data.List.Induction
import Mathlib.Data.List.Infix
import Switchboard.Proofs.World.Conservation
import Switchboard.Proofs.World.Pair

namespace Switchboard

variable {α : Type} {b : BundleId} {ref : Reference}

def Occurrence.drains (h : Handle) : Occurrence α → Bool
  | drained _ t _ => t == h
  | _ => false

def Occurrence.returnsTrue : Occurrence α → Bool
  | returned (.flag true) => true
  | _ => false

theorem Occurrence.eq_of_returnsTrue {o : Occurrence α} (ho : o.returnsTrue = true) : o = .returned (.flag true) := by
  unfold Occurrence.returnsTrue at ho
  split at ho
  · rfl
  · cases ho

namespace World

variable {w v : World α} {g g' : Registry α} {top : Option (Frame α)} {out : Outcome α} {os : List (Occurrence α)}

/-! ## What is counted -/

/-- Consumers gave back no more than they were granted, and the count is within its limit. -/
def Fair (w : World α) (os : List (Occurrence α)) (b : BundleId) (ref : Reference) : Prop :=
  givenBack os b ref ≤ (grants os b ref).length ∧
    (grants os b ref).length + w.inFlight b ref ≤ givenBack os b ref + Ledger.countLimit

instance (w : World α) (os : List (Occurrence α)) (b : BundleId) (ref : Reference) : Decidable (Fair w os b ref) :=
  inferInstanceAs (Decidable (_ ∧ _))

/-- The entry of the pair counts what was granted and not given back and what is in flight, and
    caches what was granted last. -/
structure Accounted (w : World α) (g : Registry α) (os : List (Occurrence α)) (b : BundleId) (ref : Reference) : Prop where
  absent : g.ledger.usage? b ref.id = none → givenBack os b ref = (grants os b ref).length + w.inFlight b ref
  counts : ∀ u, g.ledger.usage? b ref.id = some u →
    0 < u.count ∧ u.count + givenBack os b ref = (grants os b ref).length + w.inFlight b ref
  caches : ∀ u, g.ledger.usage? b ref.id = some u → givenBack os b ref < (grants os b ref).length →
    ∃ o, u.object = some o ∧ (grants os b ref).getLast? = some o

/-- A step that neither touches the entry of the pair nor tells of it. -/
theorem Accounted.same (ha : Accounted v g os b ref) {w : World α} {os' : List (Occurrence α)}
    (hu : g'.ledger.usage? b ref.id = g.ledger.usage? b ref.id) (hgrants : grants os' b ref = [])
    (hback : givenBack os' b ref = 0) (hin : w.inFlight b ref = v.inFlight b ref) :
    Accounted w g' (os ++ os') b ref := by
  have hgrants' := grants_append_none hgrants os
  have hback' := givenBack_append_none hback os
  refine ⟨fun hnone => ?_, fun u hsome => ?_, fun u hsome hmore => ?_⟩
  · rw [hgrants', hback', hin]
    exact ha.absent (hu ▸ hnone)
  · rw [hgrants', hback', hin]
    exact ha.counts u (hu ▸ hsome)
  · rw [hgrants', hback'] at hmore
    rw [hgrants']
    exact ha.caches u (hu ▸ hsome) hmore

/-- A `get` counts its use. -/
theorem Accounted.acquire (ha : Accounted v g os b ref) {w : World α} {os' : List (Occurrence α)}
    (hafter : g'.ledger.usage? b ref.id = some (Ledger.usedBy ref (g.ledger.usage? b ref.id)))
    (hgrants : grants os' b ref = []) (hback : givenBack os' b ref = 0) (hin : w.inFlight b ref = v.inFlight b ref + 1)
    (hfair : Fair w (os ++ os') b ref) : Accounted w g' (os ++ os') b ref := by
  have hgrants' := grants_append_none hgrants os
  have hback' := givenBack_append_none hback os
  have hlimit := hfair.2
  rw [hgrants', hback', hin] at hlimit
  refine ⟨fun hnone => ?_, fun u hsome => ?_, fun u hsome hmore => ?_⟩
  · cases hafter.symm.trans hnone
  · obtain rfl := Option.some.inj (hafter.symm.trans hsome)
    rw [hgrants', hback', hin]
    cases hbefore : g.ledger.usage? b ref.id with
    | none =>
      have := ha.absent hbefore
      show 0 < 1 ∧ 1 + _ = _
      omega
    | some u =>
      obtain ⟨hpos, hcount⟩ := ha.counts u hbefore
      show 0 < min (u.count + 1) Ledger.countLimit ∧ min (u.count + 1) Ledger.countLimit + _ = _
      omega
  · obtain rfl := Option.some.inj (hafter.symm.trans hsome)
    rw [hgrants', hback'] at hmore
    rw [hgrants']
    cases hbefore : g.ledger.usage? b ref.id with
    | none =>
      have := ha.absent hbefore
      omega
    | some u => exact ha.caches u hbefore hmore

/-- A `get` of a valid registration comes to its decision: it is granted what the entry caches
    then, or gives up the one use that is its own. -/
theorem Accounted.settle (ha : Accounted v g os b ref) {w : World α} {os' : List (Occurrence α)} {fresh : Bool}
    {o : Option α} {e : Settlement α} (hs : Settles g.ledger b ref.id true fresh o e)
    (hcached : fresh = false → ∃ u x, g.ledger.usage? b ref.id = some u ∧ u.object = some x ∧ o = some x)
    (hledger : g'.ledger = e.ledger) (hgrants : grants os' b ref = e.object.toList) (hback : givenBack os' b ref = 0)
    (hin : v.inFlight b ref = w.inFlight b ref + 1) (hfair : Fair v os b ref) : Accounted w g' (os ++ os') b ref := by
  have hback' := givenBack_append_none hback os
  have hgrants' : grants (os ++ os') b ref = grants os b ref ++ e.object.toList := by rw [grants_append, hgrants]
  have hfewer := hfair.1
  -- This `get` has a use of its own, so there is an entry.
  have hentry : ∃ u, g.ledger.usage? b ref.id = some u := by
    cases hu : g.ledger.usage? b ref.id with
    | some u => exact ⟨u, rfl⟩
    | none =>
      have := ha.absent hu
      omega
  obtain ⟨u, hu⟩ := hentry
  obtain ⟨hpos, hcount⟩ := ha.counts u hu
  have hgranted : ∀ x : α, e.object = some x → (∃ y, g'.ledger.usage? b ref.id = some y ∧ y.count = u.count ∧
      y.object = some x) → Accounted w g' (os ++ os') b ref := by
    rintro x hx ⟨y, hy, hsame, hobject⟩
    rw [hx] at hgrants'
    have hlength : (grants (os ++ os') b ref).length = (grants os b ref).length + 1 := by
      rw [hgrants', List.length_append]
      rfl
    refine ⟨fun hnone => ?_, fun z hz => ?_, fun z hz _ => ?_⟩
    · cases hy.symm.trans hnone
    · obtain rfl := Option.some.inj (hy.symm.trans hz)
      omega
    · obtain rfl := Option.some.inj (hy.symm.trans hz)
      refine ⟨x, hobject, ?_⟩
      rw [hgrants']
      exact List.getLast?_concat
  have hgivenUp : e.object = none → (∀ y, g'.ledger.usage? b ref.id = some y → 1 < u.count ∧ y.count = u.count - 1 ∧
      y.object = u.object) → (g'.ledger.usage? b ref.id = none → u.count ≤ 1) → Accounted w g' (os ++ os') b ref := by
    intro hnone hstays hgoes
    rw [hnone, Option.toList_none, List.append_nil] at hgrants'
    refine ⟨fun hgone => ?_, fun z hz => ?_, fun z hz hmore => ?_⟩
    · have := hgoes hgone
      rw [hgrants', hback']
      omega
    · obtain ⟨hmany, hless, -⟩ := hstays z hz
      rw [hgrants', hback']
      omega
    · obtain ⟨-, -, hobject⟩ := hstays z hz
      rw [hgrants', hback'] at hmore
      rw [hgrants', hobject]
      exact ha.caches u hu hmore
  cases hs with
  | cached _ hfresh ho =>
    obtain ⟨y, x, hy, hobject, hx⟩ := hcached hfresh
    obtain rfl := Option.some.inj (hu.symm.trans hy)
    refine hgranted _ rfl ⟨u, by rw [hledger]; exact hu, rfl, ?_⟩
    rw [hobject, ← hx, ho]
  | missing _ _ _ hnone => cases hu.symm.trans hnone
  | existing _ _ _ hy hc =>
    obtain rfl := Option.some.inj (hu.symm.trans hy)
    exact hgranted _ rfl ⟨u, by rw [hledger]; exact hu, rfl, hc⟩
  | @kept x y l' _ _ _ hc _ he =>
    obtain rfl := Option.some.inj (hu.symm.trans he.usage?_before)
    exact hgranted _ rfl ⟨{ u with object := some x }, by rw [hledger]; exact he.usage?_after, rfl, rfl⟩
  | lost _ hnone => cases hu.symm.trans hnone
  | @spent y l' _ _ hmany _ he =>
    obtain rfl := Option.some.inj (hu.symm.trans he.usage?_before)
    have hafter : g'.ledger.usage? b ref.id = some { u with count := u.count - 1 } := by
      rw [hledger]
      exact he.usage?_after
    refine hgivenUp rfl (fun z hz => ?_) fun hnone => ?_
    · obtain rfl := Option.some.inj (hafter.symm.trans hz)
      exact ⟨hmany, rfl, rfl⟩
    · cases hafter.symm.trans hnone
  | @dropped y l' _ hlast _ he =>
    obtain rfl := Option.some.inj (hu.symm.trans he.usage?_before)
    have hafter : g'.ledger.usage? b ref.id = none := by
      rw [hledger]
      exact he.usage?_after
    refine hgivenUp rfl (fun z hz => ?_) fun _ => ?_
    · cases hafter.symm.trans hz
    · exact hlast.resolve_left (by simp)

/-- An `unget` gives back one use; it is not the last while more than one is left. -/
theorem Accounted.giveBack (ha : Accounted v g os b ref) {w : World α} {os' : List (Occurrence α)} {u : Usage α}
    (hu : g.ledger.usage? b ref.id = some u)
    (hafter : g'.ledger.usage? b ref.id = some { u with count := u.count - 1 } ∧ 1 < u.count ∨
      g'.ledger.usage? b ref.id = none ∧ u.count ≤ 1)
    (hgrants : grants os' b ref = []) (hback : givenBack os' b ref = 1) (hin : w.inFlight b ref = v.inFlight b ref) :
    Accounted w g' (os ++ os') b ref := by
  have hgrants' := grants_append_none hgrants os
  have hback' : givenBack (os ++ os') b ref = givenBack os b ref + 1 := by rw [givenBack_append, hback]
  obtain ⟨hpos, hcount⟩ := ha.counts u hu
  rcases hafter with ⟨hafter, hmany⟩ | ⟨hafter, hlast⟩
  · refine ⟨fun hnone => ?_, fun z hz => ?_, fun z hz hmore => ?_⟩
    · cases hafter.symm.trans hnone
    · obtain rfl := Option.some.inj (hafter.symm.trans hz)
      rw [hgrants', hback', hin]
      show 0 < u.count - 1 ∧ u.count - 1 + _ = _
      omega
    · obtain rfl := Option.some.inj (hafter.symm.trans hz)
      rw [hgrants', hback'] at hmore
      rw [hgrants']
      exact ha.caches u hu (by omega)
  · refine ⟨fun _ => ?_, fun z hz => ?_, fun z hz _ => ?_⟩
    · rw [hgrants', hback', hin]
      omega
    · cases hafter.symm.trans hz
    · cases hafter.symm.trans hz

/-! ## One step -/

theorem accounted_step (hst : Standing (v.onto top) g) (hs : Step v top out) (hst' : Standing out.1 g')
    (honly : IsOnly g ref) (hlive : v.phase? ref.target ≠ some .invalid) (hlive' : out.1.phase? ref.target ≠ some .invalid)
    (hfair : Fair (v.onto top) os b ref) (hfair' : Fair out.1 (os ++ out.2) b ref)
    (ha : Accounted (v.onto top) g os b ref) : Accounted out.1 g' (os ++ out.2) b ref := by
  have hin : (v.onto top).inFlight b ref = gets top.toList b ref + v.inFlight b ref := inFlight_of_stack rfl
  have hpair : PairStep v g g' b ref top out := pair_step hst hs hst' honly
  cases hpair with
  | elsewhere htop hstack hp hsame hsilent =>
    refine ha.same hsame hsilent.grants hsilent.givenBack ?_
    rw [hin, inFlight_of_stack hstack, htop, hp]
  | @acquire out x f hx hf hstack hafter hos =>
    obtain ⟨hgrants, hback⟩ := told_asks b ref hos
    have hone : gets [f] b ref = 1 := gets_single (t := ref.target) (by rw [hf, getting?_fetch])
    refine ha.acquire hafter hgrants hback ?_ hfair'
    rw [inFlight_of_stack (p := [f]) hstack, hone, Nat.add_comm]
    rfl
  | @supplied out r o hstack hsame hos =>
    obtain ⟨hgrants, hback⟩ := told_alone b ref hos
    refine ha.same hsame hgrants hback ?_
    rw [hin, inFlight_of_stack (p := [_]) hstack, Option.toList_some, gets_single rfl, gets_single rfl]
  | @settle out fresh o e hsettles hcached hledger hstack hos =>
    obtain ⟨hgrants, hback⟩ := told_asks b ref hos
    obtain ⟨-, hregistered⟩ := hst.getting _ (List.mem_cons_self ..) _ _ _ rfl
    have hvalid : v.isValid ref.target = true := isValid_of_registered hregistered hlive
    rw [hvalid] at hsettles
    refine ha.settle hsettles hcached hledger ?_ hback ?_ hfair
    · rw [hgrants]
      simp [Occurrence.granted?]
    · rw [hin, inFlight_of_stack (p := [_]) hstack, Option.toList_some, gets_single rfl, gets_single_none rfl]
      omega
  | decrement htop hstack hp hu hmany hafter hos =>
    obtain ⟨hgrants, hback⟩ := told_alone b ref hos
    refine ha.giveBack hu (Or.inl ⟨hafter, hmany⟩) hgrants ?_ ?_
    · rw [hback]
      simp [Occurrence.givesBack]
    · rw [hin, inFlight_of_stack hstack, htop, hp]
  | @flush top out p u k htop hk hstack hp hu hlast hafter hos =>
    obtain ⟨hgrants, hback⟩ := told_of_gist b ref hos (silent_back k)
    have hleaf : gets k.toList b ref = 0 := by
      refine gets_option (fun z hz => ?_) b ref
      rw [Option.mem_def, hk, Option.map_eq_some_iff] at hz
      obtain ⟨o, -, rfl⟩ := hz
      rfl
    refine ha.giveBack hu (Or.inr ⟨hafter, hlast⟩) hgrants ?_ ?_
    · rw [hback]
      simp [Occurrence.givesBack]
    · rw [hin, inFlight_of_stack hstack, gets_append, hleaf, htop, hp]
  | drain _ _ _ _ hinvalid => exact absurd hinvalid hlive'

/-! ## Every run -/

/-- At every moment of the run, consumers gave back no more than they were granted, and the count
    stayed within its limit. -/
def FairThroughout (w : World α) (ms : List (Move α)) (b : BundleId) (ref : Reference) : Prop :=
  ∀ l, l <+: ms → ∀ out, w.run l = some out → Fair out.1 out.2 b ref

def DrainedAll (w : World α) (os : List (Occurrence α)) : Prop :=
  ∀ h, w.phase? h = some .invalid → ∃ r n, .drained r h n ∈ os

theorem drainedAll_step (hd : DrainedAll (v.onto top) os) (hst : Standing (v.onto top) g) (hs : Step v top out) :
    DrainedAll out.1 (os ++ out.2) := by
  intro h hinvalid
  rcases phase_step hst hs h with hsame | ⟨-, hp⟩ | ⟨-, hp, -⟩ | ⟨-, -, r, n, hmem⟩
  · obtain ⟨r, n, hmem⟩ := hd h (hsame.symm.trans hinvalid)
    exact ⟨r, n, List.mem_append_left _ hmem⟩
  · cases hp.symm.trans hinvalid
  · cases hp.symm.trans hinvalid
  · exact ⟨r, n, List.mem_append_right _ hmem⟩

theorem live_before (hst : Standing (v.onto top) g) (hs : Step v top out) {h : Handle}
    (hlive : out.1.phase? h ≠ some .invalid) : v.phase? h ≠ some .invalid := by
  intro hinvalid
  rcases phase_step hst hs h with hsame | ⟨hp, -⟩ | ⟨hp, -, -⟩ | ⟨hp, -, -⟩
  · exact hlive (hsame.trans hinvalid)
  · cases hp.symm.trans hinvalid
  · cases hp.symm.trans hinvalid
  · cases hp.symm.trans hinvalid

theorem accounted_run {c : Config} {hasSink : Bool} (ms : List (Move α)) :
    ∀ out, (start [(c, hasSink)]).run ms = some out → ∃ g, Standing out.1 g ∧ DrainedAll out.1 out.2 ∧
      ∀ b ref, IsOnly g ref → out.1.phase? ref.target ≠ some .invalid → FairThroughout (start [(c, hasSink)]) ms b ref →
        Accounted out.1 g out.2 b ref := by
  induction ms using List.reverseRecOn with
  | nil =>
    intro out hrun
    obtain rfl := Option.some.inj hrun
    refine ⟨_, standing_start c hasSink, (fun h hinvalid => by cases hinvalid), fun b ref _ _ _ => ?_⟩
    have hnone : (Registry.ofConfig c hasSink : Registry α).ledger.usage? b ref.id = none := by
      rw [Ledger.usage?_eq, Registry.ofConfig, Ledger.usages_withCapacity]
      rfl
    exact ⟨fun _ => rfl, fun u hu => (by cases hnone.symm.trans hu), fun u hu => (by cases hnone.symm.trans hu)⟩
  | append_singleton ms m ih =>
    intro out hrun
    obtain ⟨mid, last, hmid, hplay, rfl⟩ := run_concat _ hrun
    obtain ⟨g, hst, hdrained, hacc⟩ := ih mid hmid
    obtain ⟨g', hst'⟩ := standing_play hst hplay
    have hfairmid : ∀ b ref, FairThroughout (start [(c, hasSink)]) (ms ++ [m]) b ref →
        FairThroughout (start [(c, hasSink)]) ms b ref ∧ Fair mid.1 mid.2 b ref := fun b ref hfair =>
      ⟨fun l hl => hfair l (hl.trans (List.prefix_append ..)), hfair ms (List.prefix_append ..) mid hmid⟩
    obtain ⟨v, top, hv, -, hs⟩ := play_step hplay
    rw [hv] at hst hdrained hacc hfairmid
    refine ⟨g', hst', drainedAll_step hdrained hst hs, fun b ref honly hlive hfair => ?_⟩
    have honly' : IsOnly g ref := honly.before hst hs hst'
    have hlive' := live_before hst hs hlive
    obtain ⟨hfair', hnow⟩ := hfairmid b ref hfair
    exact accounted_step hst hs hst' honly' hlive' hlive hnow (hfair _ (List.prefix_refl _) _ hrun)
      (hacc b ref honly' hlive' hfair')

/-- What an entry has cached is among what is cached for its registration. -/
theorem cached_of_usage {l : Ledger α} {id : Nat} {u : Usage α} {o : α} (hu : l.usage? b id = some u)
    (hobject : u.object = some o) : {o} ≤ l.cached u.reference.target b := by
  obtain ⟨pre, post, hsplit⟩ := List.append_of_mem (Ledger.mem_of_usage? hu).1
  have hone : u.cachedFor u.reference.target = {o} := by
    rw [Usage.cachedFor, if_pos rfl, hobject]
    rfl
  rw [Ledger.cached, hsplit, List.map_append, List.sum_append, List.map_cons, List.sum_cons, hone]
  exact (Multiset.le_add_right _ _).trans (Multiset.le_add_left _ _)

/-- The count of a pair whose registration was not drained is what was granted and not given back
    and what is in flight. While more was granted than given back, the entry caches what was
    granted last, and of a factory's object one production of it was not handed back. -/
theorem uses_accounted {c : Config} {hasSink : Bool} {ms : List (Move α)} (hrun : (start [(c, hasSink)]).run ms = some out)
    (hknown : out.1.knows ref = true) (hlive : ∀ r n, .drained r ref.target n ∉ out.2)
    (hfair : FairThroughout (start [(c, hasSink)]) ms b ref) :
    ∃ g, out.1.registries = #[g] ∧
      g.ledger.count? b ref.id =
        (if (grants out.2 b ref).length - givenBack out.2 b ref + out.1.inFlight b ref = 0 then none
        else some ((grants out.2 b ref).length - givenBack out.2 b ref + out.1.inFlight b ref)) ∧
      (0 < (grants out.2 b ref).length - givenBack out.2 b ref →
        ∃ u o, g.ledger.usage? b ref.id = some u ∧ u.object = some o ∧ (grants out.2 b ref).getLast? = some o ∧
          (out.1.isFactory ref.target = true → o ::ₘ handedBack out.2 ref.target b ≤ made out.2 ref.target b)) := by
  obtain ⟨g, hst, hdrained, hacc⟩ := accounted_run ms out hrun
  rw [knows_sole hst.sole] at hknown
  have honly : IsOnly g ref := only_of_known hknown
  have hphase : out.1.phase? ref.target ≠ some .invalid := by
    intro hinvalid
    obtain ⟨r, n, hmem⟩ := hdrained _ hinvalid
    exact hlive r n hmem
  have ha := hacc b ref honly hphase hfair
  have hfewer := (hfair ms (List.prefix_refl ms) out hrun).1
  refine ⟨g, hst.sole, ?_, fun hmore => ?_⟩
  · rw [Ledger.count?]
    cases hu : g.ledger.usage? b ref.id with
    | none =>
      have := ha.absent hu
      rw [if_pos (by omega)]
      rfl
    | some u =>
      obtain ⟨hpos, hcount⟩ := ha.counts u hu
      rw [if_neg (by omega), Option.map_some]
      congr 1
      omega
  · cases hu : g.ledger.usage? b ref.id with
    | none =>
      have := ha.absent hu
      omega
    | some u =>
      obtain ⟨o, hobject, hlast⟩ := ha.caches u hu (by omega)
      refine ⟨u, o, rfl, hobject, hlast, fun hfactory => ?_⟩
      obtain ⟨k, hst', hconserved⟩ := conserved_run hrun
      obtain rfl := hst'.eq hst.sole
      have hsum := (hconserved ref.target (fun x hx => by rw [isFactory, hx] at hfactory; exact hfactory) b).1
      have hcached := cached_of_usage hu hobject
      rw [hst.sound.reference_eq hknown hu] at hcached
      rw [hsum, ← Multiset.singleton_add]
      exact Multiset.add_le_add_right (hcached.trans (Multiset.le_add_left _ _))

theorem not_drained_of_all {h : Handle} {os : List (Occurrence α)}
    (hall : os.all (fun o => !o.drains h) = true) : ∀ r n, .drained r h n ∉ os := by
  intro r n hmem
  have := List.all_eq_true.mp hall _ hmem
  simp [Occurrence.drains] at this

theorem fairThroughout_of_all {w : World α} {ms : List (Move α)}
    (hall : ms.inits.all (fun l => (w.run l).all fun out => decide (Fair out.1 out.2 b ref)) = true) :
    FairThroughout w ms b ref := by
  intro l hl out hrun
  have hone := List.all_eq_true.mp hall l ((List.mem_inits ..).mpr hl)
  rw [hrun, Option.all_some] at hone
  exact of_decide_eq_true hone

theorem uses_accounted_redundantGet : ∃ out, (start [(Config.standard, false)]).run redundantGet = some out ∧
    out.1.knows ⟨1, 1, 0⟩ = true ∧ (∀ r n, .drained r 0 n ∉ out.2) ∧
    FairThroughout (start [(Config.standard, false)]) redundantGet 9 ⟨1, 1, 0⟩ ∧
    ∃ g, out.1.registries = #[g] ∧
      g.ledger.count? 9 1 =
        (if (grants out.2 9 ⟨1, 1, 0⟩).length - givenBack out.2 9 ⟨1, 1, 0⟩ + out.1.inFlight 9 ⟨1, 1, 0⟩ = 0 then none
        else some ((grants out.2 9 ⟨1, 1, 0⟩).length - givenBack out.2 9 ⟨1, 1, 0⟩ + out.1.inFlight 9 ⟨1, 1, 0⟩)) ∧
      (0 < (grants out.2 9 ⟨1, 1, 0⟩).length - givenBack out.2 9 ⟨1, 1, 0⟩ →
        ∃ u o, g.ledger.usage? 9 1 = some u ∧ u.object = some o ∧ (grants out.2 9 ⟨1, 1, 0⟩).getLast? = some o ∧
          (out.1.isFactory 0 = true → o ::ₘ handedBack out.2 0 9 ≤ made out.2 0 9)) := by
  have hany : ((start [(Config.standard, false)]).run redundantGet).any (fun out => out.1.knows ⟨1, 1, 0⟩ &&
      out.2.all (fun o => !o.drains 0)) = true := by decide +kernel
  have hfair : FairThroughout (start [(Config.standard, false)]) redundantGet 9 ⟨1, 1, 0⟩ :=
    fairThroughout_of_all (by decide +kernel)
  obtain ⟨out, hrun, hout⟩ := (Option.any_eq_true _ _).mp hany
  obtain ⟨hknown, hall⟩ := Bool.and_eq_true_iff.mp hout
  have hlive := not_drained_of_all hall
  exact ⟨out, hrun, hknown, hlive, hfair, uses_accounted hrun hknown hlive hfair⟩

def lastUnget : List (Move Nat) :=
  [.call 0 (.register 7 "a" .factory none), .call 0 (.findOne "a"), .call 0 (.get 9 ⟨1, 1, 0⟩),
   .answer (.supplied (some 5)), .tick, .tick, .call 0 (.unget 9 ⟨1, 1, 0⟩)]

/-- Counted by the calls that returned true, of which there is none yet, the use is there still:
    one `get` was granted and none is in flight. But the entry is gone. -/
theorem unget_returns_late : ∃ out g, (start [(Config.standard, false)]).run lastUnget = some out ∧
    out.1.registries = #[g] ∧ out.1.knows ⟨1, 1, 0⟩ = true ∧ (∀ r n, .drained r 0 n ∉ out.2) ∧
    (∀ l, l <+: lastUnget → ∀ o, (start [(Config.standard, false)]).run l = some o →
      o.2.countP (·.returnsTrue) ≤ (grants o.2 9 ⟨1, 1, 0⟩).length ∧
      (grants o.2 9 ⟨1, 1, 0⟩).length + o.1.inFlight 9 ⟨1, 1, 0⟩ ≤ o.2.countP (·.returnsTrue) + Ledger.countLimit) ∧
    (grants out.2 9 ⟨1, 1, 0⟩).length - out.2.countP (·.returnsTrue) + out.1.inFlight 9 ⟨1, 1, 0⟩ = 1 ∧
    g.ledger.count? 9 1 = none := by
  have hany : ((start [(Config.standard, false)]).run lastUnget).any (fun out => out.1.knows ⟨1, 1, 0⟩ &&
      out.2.all (fun o => !o.drains 0) &&
      (grants out.2 9 ⟨1, 1, 0⟩).length - out.2.countP (·.returnsTrue) + out.1.inFlight 9 ⟨1, 1, 0⟩ == 1 &&
      out.1.registries.all (fun g => g.ledger.count? 9 1 == none)) = true := by decide +kernel
  have hfair : lastUnget.inits.all (fun l => ((start [(Config.standard, false)]).run l).all fun o =>
      decide (o.2.countP (·.returnsTrue) ≤ (grants o.2 9 ⟨1, 1, 0⟩).length ∧
        (grants o.2 9 ⟨1, 1, 0⟩).length + o.1.inFlight 9 ⟨1, 1, 0⟩ ≤
          o.2.countP (·.returnsTrue) + Ledger.countLimit)) = true := by decide +kernel
  obtain ⟨out, hrun, hout⟩ := (Option.any_eq_true _ _).mp hany
  obtain ⟨g, hst⟩ := standing_run hrun
  simp only [Bool.and_eq_true, beq_iff_eq, hst.sole] at hout
  obtain ⟨⟨⟨hknown, hall⟩, hcount⟩, hnone⟩ := hout
  refine ⟨out, g, hrun, hst.sole, hknown, not_drained_of_all hall, fun l hl o ho => ?_, hcount, by simpa using hnone⟩
  have hone := List.all_eq_true.mp hfair l ((List.mem_inits ..).mpr hl)
  rw [ho, Option.all_some] at hone
  exact of_decide_eq_true hone

end World

end Switchboard
