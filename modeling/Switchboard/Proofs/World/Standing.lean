/-
  Switchboard.Proofs.World.Standing — what holds in every world of one registry.

  Besides what is `Housed` and `Phased`, a `get` works on the registration behind its reference,
  only the innermost operation can go on by itself, and a `get` that found an object is about to
  give the one that is cached (`Stacked`). Together they are `Standing`; they hold at the start
  and each step keeps them (`standing_run`).

  What is valid is therefore alive (`Standing.isAlive`).
-/

import Switchboard.Proofs.World.Phased

namespace Switchboard

variable {α : Type}

namespace Frame

def getting? : Frame α → Option (Handle × BundleId × Reference)
  | resolving _ h b ref | settling _ h b ref _ _ => some (h, b, ref)
  | _ => none

theorem getting?_of_aside {f : Frame α} (hf : f.isAside) : f.getting? = none := by
  cases f <;> first | rfl | cases hf

end Frame

def Registration.origin (x : Registration α) : Registration α := { x with properties := .empty, phase := .active }

theorem Registration.origin_core (x : Registration α) : x.core.origin = x.origin := rfl

namespace World

variable {w w' v : World α} {g g' k : Registry α} {top f : Option (Frame α)} {out : Outcome α} {h t : Handle} {r : Nat}

/-! ## The operations in flight -/

/-- What the operations in flight may rely on. -/
structure Stacked (w : World α) (g : Registry α) : Prop where
  getting : ∀ k ∈ w.stack, ∀ h b ref, k.getting? = some (h, b, ref) → h = ref.target ∧ (w.registration? h).isSome
  awaiting : ∀ k ∈ w.stack.tail, k.question?.isSome ∨ k.isLoop
  settled : ∀ r h b ref o fs, w.stack = .settling r h b ref false o :: fs →
    ∃ u x, g.ledger.usage? b ref.id = some u ∧ u.object = some x ∧ o = some x

/-- Registrations stay, with all but their phase and properties. -/
theorem origin_step (hs : Step v top out) {h : Handle} {x : Registration α} (hx : v.registration? h = some x) :
    ∃ y, out.1.registration? h = some y ∧ y.origin = x.origin := by
  have hphase : ∀ t p, ∃ y, (v.setPhase t p).registration? h = some y ∧ y.origin = x.origin := by
    intro t p
    rw [registration?_setPhase, hx]
    split
    · exact ⟨_, rfl, rfl⟩
    · exact ⟨x, rfl, rfl⟩
  cases hs with
  | idle htop hi =>
    have hcore := hi.alike.registration h
    rw [hx, Option.map_some, Option.map_eq_some_iff] at hcore
    obtain ⟨y, hy, hyx⟩ := hcore
    refine ⟨y, hy, ?_⟩
    rw [← Registration.origin_core, hyx, Registration.origin_core]
  | @publish r g b name source p =>
    refine ⟨x, ?_, rfl⟩
    show (v.enlisted r g _).registration? h = some x
    rw [registration?_enlisted, if_neg, hx]
    rintro rfl
    rw [registration?_size] at hx
    cases hx
  | retire => exact hphase _ _
  | drain => exact hphase _ _
  | _ => exact ⟨x, hx, rfl⟩

theorem registered_step (hs : Step v top out) {h : Handle} (hx : (v.registration? h).isSome) :
    (out.1.registration? h).isSome := by
  obtain ⟨x, hx⟩ := Option.isSome_iff_exists.mp hx
  obtain ⟨y, hy, -⟩ := origin_step hs hx
  rw [hy]
  rfl

/-- Whatever is below a step waits for an answer or for what is above it. -/
theorem Stacked.below (hk : Stacked (v.onto top) g) (hturn : top = none → v.isClientsTurn = true) :
    ∀ k ∈ v.stack, k.question?.isSome ∨ k.isLoop := by
  cases top with
  | some f => exact hk.awaiting
  | none =>
    intro k hmem
    cases hs : v.stack with
    | nil =>
      rw [hs] at hmem
      cases hmem
    | cons f fs =>
      have hawait := hk.awaiting
      have hclient := hturn rfl
      rw [show (v.onto none).stack = f :: fs from hs] at hawait
      simp only [isClientsTurn, pending?, hs, List.isEmpty_cons, Bool.false_or, List.head?_cons,
        Option.bind_some] at hclient
      rw [hs] at hmem
      rcases List.mem_cons.mp hmem with rfl | hmem
      · exact Or.inl hclient
      · exact hawait k hmem

theorem Stacked.next (hk : Stacked (v.onto top) g) (hturn : top = none → v.isClientsTurn = true) (hs : Step v top out)
    {p : List (Frame α)} (hstack : out.1.stack = p ++ v.stack) (htail : ∀ k ∈ p.tail, k.isLoop)
    (hfs : ∀ k ∈ p, ∀ h b ref, k.getting? = some (h, b, ref) → h = ref.target ∧ (v.registration? h).isSome)
    (hhead : ∀ r h b ref o, p.head? = some (.settling r h b ref false o) →
      ∃ u x, g'.ledger.usage? b ref.id = some u ∧ u.object = some x ∧ o = some x) : Stacked out.1 g' := by
  have hbelow := hk.below hturn
  refine ⟨fun k hmem h b ref hget => ?_, fun k hmem => ?_, fun r h b ref o rest hrest => ?_⟩
  · rw [hstack] at hmem
    have hboth : h = ref.target ∧ (v.registration? h).isSome := by
      rcases List.mem_append.mp hmem with hmem | hmem
      · exact hfs k hmem h b ref hget
      · exact hk.getting k (List.mem_append_right _ hmem) h b ref hget
    exact ⟨hboth.1, registered_step hs hboth.2⟩
  · rw [hstack] at hmem
    cases p with
    | nil => exact hbelow k (List.mem_of_mem_tail hmem)
    | cons f p =>
      rcases List.mem_append.mp hmem with hmem | hmem
      · exact Or.inr (htail k hmem)
      · exact hbelow k hmem
  · rw [hstack] at hrest
    cases p with
    | nil =>
      have hmem : Frame.settling r h b ref false o ∈ v.stack := by
        rw [show v.stack = _ from hrest]
        exact List.mem_cons_self ..
      rcases hbelow _ hmem with hq | hl
      · cases hq
      · cases hl
    | cons f p =>
      refine hhead r h b ref o ?_
      rw [List.cons_append] at hrest
      rw [List.head?_cons, (List.cons.inj hrest).1]

/-- Loops and what is aside are no `get`. -/
theorem Stacked.next_aside (hk : Stacked (v.onto top) g) (hturn : top = none → v.isClientsTurn = true)
    (hs : Step v top out) {p : List (Frame α)} (hstack : out.1.stack = p ++ v.stack) (htail : ∀ k ∈ p.tail, k.isLoop)
    (hfs : ∀ k ∈ p, k.getting? = none) : Stacked out.1 g' := by
  refine hk.next hturn hs hstack htail (fun k hmem h b ref hget => ?_) fun r h b ref o hhead => ?_
  · rw [hfs k hmem] at hget
    cases hget
  · cases hfs _ (List.mem_of_mem_head? hhead)

theorem getting?_fetch {r : Nat} {b : BundleId} {ref : Reference} {cached : Option α} {source : Source α} :
    (fetch r b ref cached source).getting? = some (ref.target, b, ref) := by
  cases cached <;> cases source <;> rfl

theorem stacked_step (hh : Housed (v.onto top) g) (hk : Stacked (v.onto top) g)
    (hturn : top = none → v.isClientsTurn = true) (hs : Step v top out) (hh' : Housed out.1 g') : Stacked out.1 g' := by
  have hsole : v.registries = #[g] := hh.sole
  have htail : ∀ o : Option (Frame α), ∀ k ∈ o.toList.tail, k.isLoop := by
    intro o k hmem
    cases o <;> cases hmem
  have hloop : ∀ {o : Option (Frame α)}, v.Under top o → ∀ k ∈ o.toList, k.isLoop ∧ k.getting? = none := by
    intro o ho k hmem
    have hl := (ho k (Option.mem_toList.mp hmem)).1
    exact ⟨hl, Frame.getting?_of_aside (Frame.aside_of_loop hl)⟩
  have hstep := hs
  cases hs with
  | idle htop h =>
    obtain ⟨f, hf, haside⟩ := h.stack
    exact hk.next_aside hturn hstep hf (htail f) fun k hmem =>
      Frame.getting?_of_aside (haside k (Option.mem_toList.mp hmem)).1
  | publish b name source p held hg hf =>
    refine hk.next_aside hturn hstep rfl (htail _) fun k hmem => ?_
    rw [hf k (Option.mem_toList.mp hmem)]
    rfl
  | retire htop hf hg hx hindexed hactive =>
    refine hk.next_aside (p := _ :: _) hturn hstep rfl (fun k hmem => (hloop hf k hmem).1) fun k hmem => ?_
    rcases List.mem_cons.mp hmem with rfl | hmem
    · split <;> rfl
    · exact (hloop hf k hmem).2
  | notified =>
    refine hk.next_aside (p := [_]) hturn hstep rfl (by simp) fun k hmem => ?_
    obtain rfl := List.mem_singleton.mp hmem
    rfl
  | drain f hg hf =>
    refine hk.next_aside (p := [_]) hturn hstep rfl (by simp) fun k hmem => ?_
    obtain rfl := List.mem_singleton.mp hmem
    rw [hf]
    rfl
  | @acquire r k b ref x os f hg hknown hx hf =>
    obtain ⟨rfl, rfl⟩ := sole_get hsole hg
    obtain rfl := sole_eq hsole hh'.sole
    have hreg : (v.registration? ref.target).isSome := isSome_of_isValid (behind?_eq_some.mp hx).1
    refine hk.next (p := [_]) hturn hstep rfl (by simp) (fun q hmem h b' ref' hget => ?_) fun r h b' ref' o hhead => ?_
    · obtain rfl := List.mem_singleton.mp hmem
      rw [hf, getting?_fetch] at hget
      obtain ⟨rfl, rfl, rfl⟩ : ref.target = h ∧ b = b' ∧ ref = ref' := by simpa using hget
      exact ⟨rfl, hreg⟩
    · -- The call settles at once on what the entry caches, and it caches that still.
      have hframe : fetch 0 b ref (k.ledger.acquire b ref).1 x.source = .settling r h b' ref' false o := by
        rw [← hf]
        simpa using hhead
      unfold fetch at hframe
      split at hframe
      · rename_i c hc
        obtain ⟨-, -, rfl, rfl, -, rfl⟩ : 0 = r ∧ ref.target = h ∧ b = b' ∧ ref = ref' ∧ True ∧ some c = o := by
          simpa using hframe
        have hcached : (k.ledger.usage? b ref.id).bind (·.object) = some c := hc
        obtain ⟨u, hu, hobject⟩ := Option.bind_eq_some_iff.mp hcached
        refine ⟨Ledger.Usage.addUse u, c, ?_, hobject, rfl⟩
        rw [(Ledger.edit_acquire hh.sound.ledger b ref).usage?_after, hu]
        rfl
      · cases hframe
      · cases hframe
  | @supplied r h b ref os o =>
    refine hk.next (p := [_]) hturn hstep rfl (by simp) (fun q hmem h' b' ref' hget => ?_) fun r h b' ref' o hhead => ?_
    · obtain rfl := List.mem_singleton.mp hmem
      exact hk.getting (.resolving r h b ref) (List.mem_cons_self ..) h' b' ref' hget
    · cases hhead
  | settle e f hg he hf =>
    refine hk.next_aside (p := [_]) hturn hstep rfl (by simp) fun k hmem => ?_
    obtain rfl := List.mem_singleton.mp hmem
    rw [hf]
    rfl
  | decrement htop hf hg hknown hrel =>
    exact hk.next_aside hturn hstep rfl (htail _) fun k hmem => (hloop hf k hmem).2
  | flush k htop hf hg hknown hrel hkeep =>
    refine hk.next_aside (p := k.toList ++ _) hturn hstep (List.append_assoc ..).symm (fun q hmem => ?_) fun q hmem => ?_
    · cases k with
      | none => exact htail _ q hmem
      | some k => exact (hloop hf q hmem).1
    · rcases List.mem_append.mp hmem with hmem | hmem
      · rw [Option.mem_toList, hkeep, Option.map_eq_some_iff] at hmem
        obtain ⟨o, -, rfl⟩ := hmem
        rfl
      · exact (hloop hf q hmem).2
  | handed =>
    refine hk.next_aside (p := [_]) hturn hstep rfl (by simp) fun k hmem => ?_
    obtain rfl := List.mem_singleton.mp hmem
    rfl

/-! ## All of it, in every run -/

structure Standing (w : World α) (g : Registry α) : Prop extends Housed w g, Phased w g, Stacked w g

theorem standing_start (c : Config) (hasSink : Bool) :
    Standing (start [(c, hasSink)] : World α) (Registry.ofConfig c hasSink) := by
  have hempty : ∀ b, (Registry.ofConfig c hasSink : Registry α).ledger.usages b = [] :=
    fun b => Ledger.usages_withCapacity ..
  have hnone : ∀ h, (start [(c, hasSink)] : World α).registration? h = none := fun h => rfl
  refine ⟨⟨rfl, Registry.sound_ofConfig c hasSink, ?_⟩, ⟨?_, ?_, ?_, ?_⟩, ⟨?_, ?_, ?_⟩⟩
  · intro k hk
    cases hk
  · intro b u hu
    rw [hempty] at hu
    cases hu
  · intro h x hx
    rw [hnone] at hx
    cases hx
  · intro h hh
    cases hh
  · intro h
    rw [phase?, hnone]
    rfl
  · intro k hk
    cases hk
  · intro k hk
    cases hk
  · intro r h b ref o fs hs
    cases hs

theorem standing_step (hst : Standing (v.onto top) g) (hturn : top = none → v.isClientsTurn = true)
    (hs : Step v top out) : ∃ g', Standing out.1 g' := by
  obtain ⟨g', hh', -⟩ := housed_step hst.toHoused hs
  exact ⟨g', hh', phased_step hst.toHoused hst.toPhased hs hh',
    stacked_step hst.toHoused hst.toStacked hturn hs hh'⟩

/-- What a step keeps, with what was told before it, holds after every run. -/
theorem run_induction {P : World α → List (Occurrence α) → Prop}
    (hstep : ∀ w os m out, P w os → w.play m = some out → P out.1 (os ++ out.2)) :
    ∀ ms w os out, P w os → w.run ms = some out → P out.1 (os ++ out.2) := by
  intro ms
  induction ms with
  | nil =>
    intro w os out hP hrun
    obtain rfl := Option.some.inj hrun
    rwa [List.append_nil]
  | cons m ms ih =>
    intro w os out hP hrun
    unfold run at hrun
    obtain ⟨⟨w', os'⟩, hplay, hrest⟩ := Option.bind_eq_some_iff.mp hrun
    obtain ⟨⟨w'', os''⟩, hrun', hout⟩ := Option.bind_eq_some_iff.mp hrest
    obtain rfl := Option.some.inj hout
    have hP' := ih w' (os ++ os') (w'', os'') (hstep w os m (w', os') hP hplay) hrun'
    rwa [List.append_assoc] at hP'

theorem run_append (ms ms' : List (Move α)) (w : World α) :
    w.run (ms ++ ms') = (w.run ms).bind fun out => (out.1.run ms').map fun out' => (out'.1, out.2 ++ out'.2) := by
  induction ms generalizing w with
  | nil =>
    show w.run ms' = ((w.run ms').map fun out' => (out'.1, [] ++ out'.2))
    cases w.run ms' <;> rfl
  | cons m ms ih =>
    rw [List.cons_append, run, run]
    cases hplay : w.play m with
    | none => rfl
    | some out =>
      simp only [Option.bind_eq_bind, Option.bind_some, ih]
      cases hrun : out.1.run ms with
      | none => rfl
      | some out' =>
        cases hrun' : out'.1.run ms' with
        | none => simp [hrun']
        | some out'' => simp [hrun', List.append_assoc]

/-- A run after a run. -/
theorem run_trans {ms ms' : List (Move α)} {mid last : Outcome α} (hrun : w.run ms = some mid)
    (hrun' : mid.1.run ms' = some last) : w.run (ms ++ ms') = some (last.1, mid.2 ++ last.2) := by
  rw [run_append, hrun, Option.bind_some, hrun']
  rfl

/-- The last move of a run. -/
theorem run_concat (ms : List (Move α)) {m : Move α} (hrun : w.run (ms ++ [m]) = some out) :
    ∃ mid last, w.run ms = some mid ∧ mid.1.play m = some last ∧ out = (last.1, mid.2 ++ last.2) := by
  rw [run_append] at hrun
  obtain ⟨mid, hmid, hlast⟩ := Option.bind_eq_some_iff.mp hrun
  obtain ⟨last, hplay, rfl⟩ := Option.map_eq_some_iff.mp hlast
  have hone : mid.1.run [m] = (mid.1.play m).map fun out => (out.1, out.2 ++ []) := by
    rw [run]
    cases mid.1.play m <;> rfl
  rw [hone, Option.map_eq_some_iff] at hplay
  obtain ⟨last', hplay, rfl⟩ := hplay
  exact ⟨mid, last', hmid, hplay, by rw [List.append_nil]⟩

theorem run_extend {ms : List (Move α)} {m : Move α} {mid last : Outcome α} (hrun : w.run ms = some mid)
    (hplay : mid.1.play m = some last) : w.run (ms ++ [m]) = some (last.1, mid.2 ++ last.2) := by
  rw [run_append, hrun]
  simp [run, hplay]

/-- What a registration was published with stays. -/
theorem origin_play {m : Move α} {x : Registration α} (hplay : w.play m = some out) (hx : w.registration? h = some x) :
    ∃ y, out.1.registration? h = some y ∧ y.origin = x.origin := by
  obtain ⟨v, top, rfl, -, hs⟩ := play_step hplay
  exact origin_step hs hx

theorem origin_run {ms : List (Move α)} {x : Registration α} (hrun : w.run ms = some out) (hx : w.registration? h = some x) :
    ∃ y, out.1.registration? h = some y ∧ y.origin = x.origin := by
  refine run_induction (P := fun v _ => ∃ y, v.registration? h = some y ∧ y.origin = x.origin) ?_ ms w [] out
    ⟨x, hx, rfl⟩ hrun
  intro v _ m out hv hplay
  obtain ⟨y, hy, horigin⟩ := hv
  obtain ⟨z, hz, horigin'⟩ := origin_play hplay hy
  exact ⟨z, hz, horigin'.trans horigin⟩

theorem standing_play {m : Move α} (hst : Standing w g) (hplay : w.play m = some out) : ∃ g', Standing out.1 g' := by
  obtain ⟨v, top, rfl, hturn, hs⟩ := play_step hplay
  refine standing_step hst (fun htop => ?_) hs
  subst htop
  exact hturn rfl

theorem standing_run {c : Config} {hasSink : Bool} {ms : List (Move α)} (hrun : (start [(c, hasSink)]).run ms = some out) :
    ∃ g, Standing out.1 g :=
  run_induction (P := fun w _ => ∃ g, Standing w g) (fun _ _ _ _ ⟨_, hst⟩ hplay => standing_play hst hplay) ms _ [] out
    ⟨_, standing_start c hasSink⟩ hrun

/-! ## What follows -/

theorem Standing.eq (hst : Standing w g) (hk : w.registries = #[k]) : k = g := sole_unique hst.sole hk

/-- References are never taken back. -/
theorem knows_step (hst : Standing (v.onto top) g) (hs : Step v top out) (hst' : Standing out.1 g') {ref : Reference}
    (hknown : g.knows ref = true) : g'.knows ref = true := by
  obtain ⟨k, hh, hknows⟩ := housed_step hst.toHoused hs
  rw [← hst'.eq hh.sole]
  exact hknows ref hknown

/-- The registration of an entry is alive, also without the operation that asks. -/
theorem Standing.isAlive (hst : Standing (v.onto top) g) (htop : ∀ k ∈ top, k.isLoop) {h : Handle}
    (hvalid : v.isValid h = true) : v.isAlive h = true := by
  have hsole : v.registries = #[g] := hst.sole
  rcases isValid_iff.mp hvalid with hp | hp
  · have hindexed : v.isIndexed g h = true := by
      rw [phase?, Option.map_eq_some_iff] at hp
      obtain ⟨x, hx, hactive⟩ := hp
      rw [World.isIndexed, hx, Option.any_some]
      exact (hst.listed h x hx).mpr hactive
    simp [World.isAlive, hsole, hindexed]
  · have hcount := hst.leaving_below h
    rw [countP_leaves_loop htop, if_pos hp] at hcount
    have hpos : 0 < v.stack.countP (·.leaves h) := by omega
    obtain ⟨k, hk, hleaves⟩ := List.countP_pos_iff.mp hpos
    have hpins : k.pins.contains h = true := by
      cases k <;> simp_all [Frame.leaves, Frame.pins]
    have hany : v.stack.any (·.pins.contains h) = true := List.any_eq_true.mpr ⟨k, hk, hpins⟩
    rw [World.isAlive, hany, Bool.or_true, Bool.true_or]

/-- Whoever asks for it, an `unget` is of a reference that was handed out here. -/
theorem Standing.knows_of_release (hst : Standing (v.onto top) g) {ref : Reference}
    (hknown : v.knows ref = true ∨ ∃ k ∈ top, ref ∈ k.refs) : g.knows ref = true := by
  rcases hknown with hknown | ⟨f, hf, href⟩
  · rwa [knows_sole (show v.registries = #[g] from hst.sole)] at hknown
  · exact hst.refs f (List.mem_append_left _ (Option.mem_toList.mpr hf)) ref href

theorem mem_of_gist {os os' : List (Occurrence α)} {o : Occurrence α} (hos : gist os = o :: os') : o ∈ os :=
  (List.mem_filter.mp (hos ▸ List.mem_cons_self .. : o ∈ gist os)).1

/-- What a step does to a phase: a registration is published, its withdrawal starts, or it is
    drained. -/
theorem phase_step (hst : Standing (v.onto top) g) (hs : Step v top out) (h : Handle) :
    out.1.phase? h = v.phase? h ∨
    (v.phase? h = none ∧ out.1.phase? h = some .active) ∨
    (v.phase? h = some .active ∧ out.1.phase? h = some .unregistering ∧ ∃ r, .retired r h ∈ out.2) ∨
    (v.phase? h = some .unregistering ∧ out.1.phase? h = some .invalid ∧ ∃ r n, .drained r h n ∈ out.2) := by
  cases hs with
  | idle htop hi => exact Or.inl (hi.alike.phase? h)
  | @publish r g b name source p held f os hg hf hos =>
    by_cases hsize : h = v.registrations.size
    · right
      left
      constructor
      · rw [hsize, phase?, registration?_size]
        rfl
      · show ((v.enlisted r g _).registration? h).map _ = _
        rw [registration?_enlisted, if_pos hsize]
        rfl
    · left
      show ((v.enlisted r g _).registration? h).map _ = _
      rw [registration?_enlisted, if_neg hsize]
      rfl
  | @retire top f r k t x os htop hf hg hx hindexed hactive hos =>
    by_cases ht : h = t
    · subst ht
      right
      right
      left
      refine ⟨isActive_iff.mp hactive, ?_, r, mem_of_gist hos⟩
      show (v.setPhase h .unregistering).phase? h = _
      rw [phase?_setPhase, if_pos rfl, isActive_iff.mp hactive]
      rfl
    · exact Or.inl (phase?_setPhase_of_ne ht)
  | @drain r k t os f hg hf hos =>
    by_cases ht : h = t
    · subst ht
      right
      right
      right
      exact ⟨hst.phase_draining, hst.phase_drained, r, _, mem_of_gist hos⟩
    · exact Or.inl (phase?_setPhase_of_ne ht)
  | _ => exact Or.inl rfl

/-- What is invalid stays so, however many registries there are. -/
theorem invalid_step (hs : Step v top out) (hinvalid : v.phase? h = some .invalid) :
    out.1.phase? h = some .invalid := by
  cases hs with
  | idle htop hi => exact (hi.alike.phase? h).trans hinvalid
  | @publish r g b name source p held f os hg hf hos =>
    have hne : h ≠ v.registrations.size := by
      intro heq
      rw [heq, phase?, registration?_size] at hinvalid
      cases hinvalid
    show ((v.enlisted r g _).registration? h).map _ = _
    rw [registration?_enlisted, if_neg hne]
    exact hinvalid
  | @retire top f r g t x os htop hf hg hx hindexed hactive hos =>
    have hne : h ≠ t := by
      intro heq
      rw [← heq, isActive_iff, hinvalid] at hactive
      cases hactive
    exact (phase?_setPhase_of_ne hne).trans hinvalid
  | @drain r g t os f hg hf hos =>
    show (v.setPhase t .invalid).phase? h = _
    rw [phase?_setPhase, hinvalid]
    split <;> rfl
  | _ => exact hinvalid

end World

end Switchboard
