/-
  Switchboard.Proofs.World.Entries — what the entries of a ledger are.

  A ledger has no two entries for one pair and no slot without one, every entry counts a use, and
  its registration is alive and valid. What it caches was supplied by that registration.

  An entry that caches nothing was made by a `get`, and there are gets of its pair in flight, as
  many as it counts at least, all of which counted their use since the entry was made
  (`Awaited`): what lies below them on the stack was there before. For only a `get` that comes
  to its decision leaves, and it then caches an object or gives up a use (`entry_step`). So when
  no `get` is in flight, every entry caches an object (`entries_sound`).
-/

import Mathlib.Data.List.Induction
import Mathlib.Data.List.Infix
import Switchboard.Proofs.World.Pair
import Switchboard.Proofs.World.Provenance

namespace Switchboard

variable {α : Type}

namespace World

variable {w w' v : World α} {g g' : Registry α} {top : Option (Frame α)} {out : Outcome α} {os : List (Occurrence α)}
  {b : BundleId} {id : Nat} {ms : List (Move α)} {m : Move α}

/-! ## What a step does to an entry -/

/-- What became of the entry of a pair of `b`, none or the first one, when it is the second. -/
inductive EntryStep (v : World α) (top : Option (Frame α)) (out : Outcome α) (b : BundleId) :
    Option (Usage α) → Usage α → Prop
  | made {u : Usage α} {f : Frame α} (htop : top = none) (hstack : out.1.stack = f :: v.stack)
      (hget : f.isGetOf b u.reference = true) (hcount : u.count = 1) : EntryStep v top out b none u
  /-- It went on; while it caches nothing, it counts no more than the gets in flight allow. -/
  | went {u u' : Usage α} {q : List (Frame α)} (hstack : out.1.stack = q ++ v.stack) (href : u'.reference = u.reference)
      (hpos : 0 < u.count → 0 < u'.count)
      (hobject : u'.object = none → u.object = none ∧
        u'.count + gets top.toList b u.reference ≤ u.count + gets q b u.reference) : EntryStep v top out b (some u) u'

/-- The entry is as it was, and as many gets of its pair are in flight at least. -/
theorem EntryStep.same {u' : Usage α} (hu : g.ledger.usage? b id = some u') {q : List (Frame α)}
    (hstack : out.1.stack = q ++ v.stack) (hgets : gets top.toList b u'.reference ≤ gets q b u'.reference) :
    EntryStep v top out b (g.ledger.usage? b id) u' := by
  rw [hu]
  exact .went hstack rfl (fun h => h) fun hnone => ⟨hnone, Nat.add_le_add_left hgets _⟩

/-- A `get` comes to its decision. -/
theorem entryStep_settle {ref : Reference} {valid fresh : Bool} {o : Option α} {e : Settlement α}
    (hs : Settles g.ledger b ref.id valid fresh o e)
    (hcached : fresh = false → ∃ u x, g.ledger.usage? b ref.id = some u ∧ u.object = some x ∧ o = some x)
    (htop : ∀ q, gets top.toList b q ≤ 1) {k : Frame α} (hstack : out.1.stack = [k] ++ v.stack) {u' : Usage α}
    (hu' : e.ledger.usage? b ref.id = some u') : EntryStep v top out b (g.ledger.usage? b ref.id) u' := by
  cases hs with
  | cached _ hfresh =>
    obtain ⟨u, x, hu, hx, -⟩ := hcached hfresh
    obtain rfl := Option.some.inj (hu.symm.trans hu')
    rw [hu']
    exact .went hstack rfl (fun h => h) fun hnone => by cases hx.symm.trans hnone
  | missing _ _ _ hnone => cases hnone.symm.trans hu'
  | existing _ _ _ hu hc =>
    obtain rfl := Option.some.inj (hu.symm.trans hu')
    rw [hu']
    exact .went hstack rfl (fun h => h) fun hnone => by cases hc.symm.trans hnone
  | kept _ _ _ _ _ he =>
    obtain rfl := Option.some.inj (he.usage?_after.symm.trans hu')
    rw [he.usage?_before]
    exact .went hstack rfl (fun h => h) fun hnone => by cases hnone
  | lost _ hnone => cases hnone.symm.trans hu'
  | @spent u _ _ _ hmany _ he =>
    obtain rfl := Option.some.inj (he.usage?_after.symm.trans hu')
    rw [he.usage?_before]
    refine .went hstack rfl (fun _ => ?_) fun hnone => ⟨hnone, ?_⟩
    · show 0 < u.count - 1
      omega
    · have := htop u.reference
      show u.count - 1 + _ ≤ _
      omega
  | dropped _ _ _ he => cases he.usage?_after.symm.trans hu'

/-- What a step does to the pair of an entry that is there after it. -/
theorem entry_step (hst : Standing (v.onto top) g) (hs : Step v top out) (hst' : Standing out.1 g') {u' : Usage α}
    (hu' : g'.ledger.usage? b id = some u') : EntryStep v top out b (g.ledger.usage? b id) u' := by
  obtain ⟨hmem, hid⟩ := Ledger.mem_of_usage? hu'
  subst hid
  -- The entry tells the reference of the pair, which the registry knows by its id alone.
  have honly : IsOnly g u'.reference := (only_of_known (hst'.sound.known b u' hmem)).before hst hs hst'
  have hpair : PairStep v g g' b u'.reference top out := pair_step hst hs hst' honly
  cases hpair with
  | elsewhere htop hstack _ hsame =>
    refine .same (hsame.symm.trans hu') hstack ?_
    rw [htop]
    exact Nat.zero_le _
  | @acquire out x f _ hf hstack hafter =>
    have hget : f.getting? = some (u'.reference.target, b, u'.reference) := by rw [hf, getting?_fetch]
    have hused := Option.some.inj (hafter.symm.trans hu')
    cases hu : g.ledger.usage? b u'.reference.id with
    | none =>
      rw [hu] at hused
      exact .made rfl hstack (isGetOf_of_getting? hget) (by rw [← hused]; rfl)
    | some u =>
      rw [hu] at hused
      have href : u'.reference = u.reference := by rw [← hused]; rfl
      have hcount : u'.count = min (u.count + 1) Ledger.countLimit := by rw [← hused]; rfl
      refine .went (q := [f]) hstack href (fun _ => ?_) fun hnone => ⟨?_, ?_⟩
      · rw [hcount]
        exact Nat.lt_min.mpr ⟨Nat.succ_pos _, by decide⟩
      · rw [← hnone, ← hused]
        rfl
      · rw [← href, gets_single hget, hcount]
        exact Nat.min_le_left ..
  | supplied _ hstack hsame =>
    refine .same (q := [_]) (hsame.symm.trans hu') hstack ?_
    rw [Option.toList_some, gets_single rfl, gets_single rfl]
  | settle hsettles hcached hledger hstack =>
    refine entryStep_settle hsettles hcached (fun q => ?_) hstack (hledger ▸ hu')
    rw [Option.toList_some, gets_singleton]
    split <;> omega
  | @decrement top out p u _ htop hstack hp hu hmany hafter =>
    obtain rfl := Option.some.inj (hafter.symm.trans hu')
    rw [hu]
    refine .went hstack rfl (fun _ => ?_) fun hnone => ⟨hnone, ?_⟩
    · show 0 < u.count - 1
      omega
    · rw [show gets top.toList b u.reference = 0 from htop]
      show u.count - 1 + 0 ≤ _
      omega
  | flush _ _ _ _ _ _ _ hafter => cases hafter.symm.trans hu'
  | drain _ _ hafter => cases hafter.symm.trans hu'

/-! ## Since when an entry is there -/

def hasEntry (w : World α) (b : BundleId) (id : Nat) : Prop := ∃ g ∈ w.registries, (g.ledger.usage? b id).isSome

/-- The first moves `l` of `ms` led to a world `mid` without an entry of the pair. It has had one
    since the next move, and all that was in flight then has been ever since. -/
structure EntrySince (w₀ : World α) (ms l : List (Move α)) (mid : World α) (b : BundleId) (id : Nat) : Prop where
  before : l <+: ms
  reached : ∃ os, w₀.run l = some (mid, os)
  absent : ¬ mid.hasEntry b id
  since : ∀ l', l <+: l' → l' <+: ms → l' ≠ l → ∀ o, w₀.run l' = some o → o.1.hasEntry b id ∧ mid.stack <:+ o.1.stack

/-- As many gets of the pair are in flight as the entry counts, at least, all of them on top of
    what was in flight when it was made. -/
def Awaited (w₀ : World α) (ms : List (Move α)) (w : World α) (b : BundleId) (u : Usage α) : Prop :=
  ∃ l mid p, EntrySince w₀ ms l mid b u.reference.id ∧ w.stack = p ++ mid.stack ∧ u.count ≤ gets p b u.reference

theorem hasEntry_of_usage {u : Usage α} (hs : w.registries = #[g]) (hu : g.ledger.usage? b id = some u) :
    w.hasEntry b id := by
  refine ⟨g, ?_, ?_⟩
  · rw [hs]
    exact Array.mem_singleton.mpr rfl
  · rw [hu]
    rfl

theorem not_hasEntry (hs : w.registries = #[g]) (hu : g.ledger.usage? b id = none) : ¬ w.hasEntry b id := by
  rintro ⟨k, hk, hsome⟩
  rw [hs] at hk
  obtain rfl := Array.mem_singleton.mp hk
  rw [hu] at hsome
  cases hsome

/-- The last move made the entry. -/
theorem EntrySince.now {w₀ : World α} (hmid : w₀.run ms = some (w, os)) (hrun : w₀.run (ms ++ [m]) = some out)
    (habsent : ¬ w.hasEntry b id) (hentry : out.1.hasEntry b id) (hstack : w.stack <:+ out.1.stack) :
    EntrySince w₀ (ms ++ [m]) ms w b id := by
  refine ⟨List.prefix_append .., ⟨os, hmid⟩, habsent, fun l' hl hl' hne o ho => ?_⟩
  rcases List.prefix_concat_iff.mp hl' with rfl | hl'
  · obtain rfl := Option.some.inj (hrun.symm.trans ho)
    exact ⟨hentry, hstack⟩
  · exact absurd (hl'.eq_of_length (Nat.le_antisymm hl'.length_le hl.length_le)) hne

/-- The last move left it. -/
theorem EntrySince.concat {w₀ : World α} {l : List (Move α)} (hsince : EntrySince w₀ ms l w b id)
    (hrun : w₀.run (ms ++ [m]) = some out) (hentry : out.1.hasEntry b id) (hstack : w.stack <:+ out.1.stack) :
    EntrySince w₀ (ms ++ [m]) l w b id := by
  refine ⟨hsince.before.trans (List.prefix_append ..), hsince.reached, hsince.absent, fun l' hl hl' hne o ho => ?_⟩
  rcases List.prefix_concat_iff.mp hl' with rfl | hl'
  · obtain rfl := Option.some.inj (hrun.symm.trans ho)
    exact ⟨hentry, hstack⟩
  · exact hsince.since l' hl hl' hne o ho

/-- The gets an entry awaits stand on top of what the step leaves alone. -/
theorem Awaited.below {w₀ : World α} {u : Usage α} (ha : Awaited w₀ ms (v.onto top) b u) (hpos : 0 < u.count) :
    ∃ l mid p, EntrySince w₀ ms l mid b u.reference.id ∧ v.stack = p ++ mid.stack ∧
      u.count ≤ gets top.toList b u.reference + gets p b u.reference := by
  obtain ⟨l, mid, p, hsince, hstack, hcount⟩ := ha
  have hstack : top.toList ++ v.stack = p ++ mid.stack := hstack
  cases top with
  | none => exact ⟨l, mid, p, hsince, hstack, by simpa [gets] using hcount⟩
  | some f =>
    cases p with
    | nil => exact absurd hcount (Nat.not_le.mpr hpos)
    | cons k p =>
      obtain ⟨rfl, hbelow⟩ := List.cons.inj hstack
      refine ⟨l, mid, p, hsince, hbelow, ?_⟩
      rw [gets, List.countP_cons] at hcount
      rw [Option.toList_some, gets_singleton, gets]
      omega

/-- An entry that awaits gets has one in flight. -/
theorem Awaited.in_flight {w₀ : World α} {u : Usage α} (ha : Awaited w₀ ms w b u) (hpos : 0 < u.count) :
    ∃ f ∈ w.stack, f.getting? ≠ none := by
  obtain ⟨l, mid, p, -, hstack, hcount⟩ := ha
  have hgets : 0 < gets p b u.reference := by omega
  obtain ⟨f, hf, hget⟩ := List.countP_pos_iff.mp hgets
  refine ⟨f, ?_, fun hnone => ?_⟩
  · rw [hstack]
    exact List.mem_append_left _ hf
  · rw [isGetOf_of_getting?_none hnone] at hget
    cases hget

/-! ## Every run -/

theorem entries_run {c : Config} {hasSink : Bool} (ms : List (Move α)) :
    ∀ out, (start [(c, hasSink)]).run ms = some out → ∃ g, Standing out.1 g ∧
      ∀ b id u, g.ledger.usage? b id = some u →
        0 < u.count ∧ (u.object = none → Awaited (start [(c, hasSink)]) ms out.1 b u) := by
  induction ms using List.reverseRecOn with
  | nil =>
    intro out hrun
    obtain rfl := Option.some.inj hrun
    refine ⟨_, standing_start c hasSink, fun b id u hu => ?_⟩
    rw [Ledger.usage?_eq, Registry.ofConfig, Ledger.usages_withCapacity] at hu
    cases hu
  | append_singleton ms m ih =>
    intro out hrun
    obtain ⟨⟨w, os⟩, last, hmid, hplay, rfl⟩ := run_concat _ hrun
    obtain ⟨g, hst, hentries⟩ := ih _ hmid
    obtain ⟨g', hst'⟩ := standing_play hst hplay
    obtain ⟨v, top, rfl, -, hs⟩ := play_step hplay
    refine ⟨g', hst', fun b id u' hu' => ?_⟩
    have hentry : last.1.hasEntry b id := hasEntry_of_usage hst'.sole hu'
    have hid : u'.reference.id = id := (Ledger.mem_of_usage? hu').2
    have hstep := entry_step hst hs hst' hu'
    cases hbefore : g.ledger.usage? b id with
    | none =>
      rw [hbefore] at hstep
      cases hstep with
      | @made _ f htop hstack hget hcount =>
        subst htop
        refine ⟨by omega, fun _ => ⟨ms, v.onto none, [f], ?_, hstack, ?_⟩⟩
        · rw [hid]
          refine .now hmid hrun (not_hasEntry hst.sole hbefore) hentry ?_
          rw [show last.1.stack = f :: v.stack from hstack]
          exact List.suffix_cons ..
        · rw [gets_singleton, if_pos hget]
          omega
    | some u =>
      rw [hbefore] at hstep
      obtain ⟨hpos, hawaited⟩ := hentries b id u hbefore
      cases hstep with
      | @went _ _ q hstack href hpos' hobject =>
        refine ⟨hpos' hpos, fun hnone => ?_⟩
        obtain ⟨hnone, hcount'⟩ := hobject hnone
        obtain ⟨l, mid, p, hsince, hbelow, hcount⟩ := (hawaited hnone).below hpos
        have hstack' : last.1.stack = (q ++ p) ++ mid.stack := by rw [hstack, hbelow, List.append_assoc]
        refine ⟨l, mid, q ++ p, ?_, hstack', ?_⟩
        · rw [href]
          refine hsince.concat hrun ?_ ⟨q ++ p, hstack'.symm⟩
          rw [← href, hid]
          exact hentry
        · rw [gets_append, href]
          omega

/-- A use is counted of a reference that was handed out. -/
theorem knows_of_acquired (hst : Standing (v.onto top) g) (hs : Step v top out) {r : Nat} {q : Reference}
    (hmem : .acquired r b q ∈ out.2) : g.knows q = true := by
  rcases hs.tells hmem rfl with ⟨_, hq⟩ | htells
  · cases hq
  · cases htells with
    | acquired hknown =>
      rw [← knows_sole (show v.registries = #[g] from hst.sole)]
      exact hknown

theorem knows_of_acquired_run {c : Config} {hasSink : Bool} (hrun : (start [(c, hasSink)]).run ms = some out) :
    ∃ g, Standing out.1 g ∧ ∀ r b q, .acquired r b q ∈ out.2 → g.knows q = true := by
  refine run_induction (P := fun w os => ∃ g, Standing w g ∧ ∀ r b q, .acquired r b q ∈ os → g.knows q = true) ?_ ms _ []
    out ⟨_, standing_start c hasSink, by simp⟩ hrun
  rintro w os m out ⟨g, hst, hknown⟩ hplay
  obtain ⟨g', hst'⟩ := standing_play hst hplay
  obtain ⟨v, top, rfl, -, hs⟩ := play_step hplay
  refine ⟨g', hst', fun r b q hmem => knows_step hst hs hst' ?_⟩
  rcases List.mem_append.mp hmem with hmem | hmem
  · exact hknown r b q hmem
  · exact knows_of_acquired hst hs hmem

structure Justified (w₀ : World α) (ms : List (Move α)) (w : World α) (os : List (Occurrence α)) (b : BundleId)
    (u : Usage α) : Prop where
  counts : 0 < u.count
  alive : w.isAlive u.reference.target = true
  valid : w.phase? u.reference.target = some .active ∨ w.phase? u.reference.target = some .unregistering
  awaited : u.object = none → Awaited w₀ ms w b u
  supplied : ∀ o, u.object = some o → w.Supplied os u.reference.target b o
  settled : (∀ f ∈ w.stack, f.getting? = none) → ∃ o, u.object = some o ∧ w.Supplied os u.reference.target b o

/-- No pair has two entries and no slot is empty. Every entry counts a use of something alive and
    valid, and what it caches its own registration supplied; while it caches nothing, gets of its
    pair that counted their use since it was made are in flight, as many as it counts at least. -/
theorem entries_sound {c : Config} {hasSink : Bool} (hrun : (start [(c, hasSink)]).run ms = some out) :
    ∃ g, out.1.registries = #[g] ∧ (g.ledger.entries.map fun e => (e.1, e.2.reference.id)).Nodup ∧
      (∀ e ∈ g.ledger.inUse.toList, e.2 ≠ []) ∧
      ∀ e ∈ g.ledger.entries, Justified (start [(c, hasSink)]) ms out.1 out.2 e.1 e.2 := by
  obtain ⟨g, hst, hentries⟩ := entries_run ms out hrun
  have hl := hst.sound.ledger
  refine ⟨g, hst.sole, Ledger.nodup_entries hl, ?_, ?_⟩
  · intro e he
    obtain ⟨d, hd, rfl⟩ := List.mem_map.mp he
    exact hl.tidy.ne_nil_of_mem Keying.bundle_lawful hd
  · rintro ⟨b, u⟩ he
    have hmem := (Ledger.mem_entries hl).mp he
    dsimp only at hmem
    have hvalid : out.1.isValid u.reference.target = true := hst.valid b u hmem
    obtain ⟨hpos, hawaited⟩ := hentries b _ u (Ledger.usage?_of_mem hl hmem)
    have hsupplied : ∀ o, u.object = some o → out.1.Supplied out.2 u.reference.target b o := by
      intro o ho
      have hat : out.1.registries[0]? = some g := by
        rw [hst.sole]
        rfl
      obtain ⟨q, hid, hacquired, hsup⟩ := ((provided_run hrun).stocked 0 g hat).cached b u hmem o ho
      obtain ⟨k, hst', hknown⟩ := knows_of_acquired_run hrun
      obtain rfl := hst'.eq hst.sole
      have hq : q = u.reference := Registry.knows_unique (hknown 0 b q hacquired) (hst.sound.known b u hmem) hid
      rw [← hq]
      exact hsup
    refine ⟨hpos, ?_, isValid_iff.mp hvalid, hawaited, hsupplied, fun hnone => ?_⟩
    · have hst' : Standing (World.onto out.1 none) g := hst
      exact hst'.isAlive (by simp) hvalid
    · cases ho : u.object with
      | some o => exact ⟨o, rfl, hsupplied o ho⟩
      | none =>
        obtain ⟨f, hf, hget⟩ := (hawaited ho).in_flight hpos
        exact absurd (hnone f hf) hget

def getInGet : List (Move Nat) :=
  [.call 0 (.register 7 "a" .factory none), .call 0 (.findOne "a"), .call 0 (.get 9 ⟨1, 1, 0⟩), .call 0 (.get 9 ⟨1, 1, 0⟩)]

theorem entries_sound_getInGet : ∃ out, (start [(Config.standard, false)]).run getInGet = some out ∧
    ∃ g, out.1.registries = #[g] ∧ (g.ledger.entries.map fun e => (e.1, e.2.reference.id)).Nodup ∧
      (∀ e ∈ g.ledger.inUse.toList, e.2 ≠ []) ∧
      ∀ e ∈ g.ledger.entries, Justified (start [(Config.standard, false)]) getInGet out.1 out.2 e.1 e.2 := by
  have hsome : ((start [(Config.standard, false)]).run getInGet).isSome = true := by decide +kernel
  obtain ⟨out, hrun⟩ := Option.isSome_iff_exists.mp hsome
  exact ⟨out, hrun, entries_sound hrun⟩

end World

end Switchboard
