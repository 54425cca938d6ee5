/-
  Switchboard.Proofs.World.Events — what the sink is told of a registration.

  A move does at most one thing to a registration, and what it does fits its phase (`Deed`). So
  what is done to it in a run is a word: it is published, it is changed some number of times while
  it is active, and its withdrawal starts at most once, with nothing after it (`Word`).

  Where there is a sink, it is told exactly that: once for each call that changed the properties,
  and once for the one call that withdrew it. When it is told that something was published,
  lookups find it; when it is told that something goes, no lookup does, but whoever has a
  reference may still use it (`event_protocol`).
-/

import Switchboard.Proofs.World.Index
import Switchboard.Proofs.World.Log
import Switchboard.Proofs.World.Withdrawal

namespace Switchboard

variable {α : Type}

/-! ## The life of a registration -/

inductive Deed : Option Phase → Option Phase → List EventKind → Prop
  | nothing (p : Option Phase) : Deed p p []
  | drained : Deed (some .unregistering) (some .invalid) []
  | published : Deed none (some .active) [.registered]
  | replaced : Deed (some .active) (some .active) [.modified]
  | retired : Deed (some .active) (some .unregistering) [.unregistering]

/-- What was done to a registration of this phase. -/
inductive Word : Option Phase → List EventKind → Prop
  | unpublished : Word none []
  | active (n : Nat) : Word (some .active) (.registered :: List.replicate n .modified)
  | withdrawn {p : Phase} (hp : p ≠ .active) (n : Nat) :
      Word (some p) (.registered :: (List.replicate n .modified ++ [.unregistering]))

theorem Word.step {p p' : Option Phase} {ks ks' : List EventKind} (hw : Word p ks) (hd : Deed p p' ks') :
    Word p' (ks ++ ks') := by
  cases hd with
  | nothing =>
    rw [List.append_nil]
    exact hw
  | drained =>
    cases hw with
    | withdrawn _ n =>
      rw [List.append_nil]
      exact .withdrawn (by simp) n
  | published =>
    cases hw
    exact .active 0
  | replaced =>
    cases hw with
    | active n =>
      rw [List.cons_append, ← List.replicate_succ']
      exact .active (n + 1)
    | withdrawn hp => exact absurd rfl hp
  | retired =>
    cases hw with
    | active n => exact .withdrawn (by simp) n
    | withdrawn hp => exact absurd rfl hp

namespace World

variable {w v : World α} {g : Registry α} {top : Option (Frame α)} {out : Outcome α} {h t : Handle} {r : Nat}
  {os ns : List (Occurrence α)} {p : List (Frame α)}

theorem phase?_eq_none : w.phase? h = none ↔ w.registration? h = none := by
  rw [phase?, Option.map_eq_none_iff]

/-- What is said to have been published was not there, and is active. -/
theorem registration_of_published (ht : Takes v top out) (hmem : .published r h ∈ out.2) :
    v.phase? h = none ∧ ∃ x, out.1.registration? h = some x ∧ x.home = r ∧ x.phase = .active := by
  cases ht.grows with
  | same _ hnone => exact absurd hmem (hnone r h)
  | @published q g b name source p hg hset hsaid =>
    have hmem' : Occurrence.published r h ∈ out.2.filter Occurrence.isPublished := List.mem_filter.mpr ⟨hmem, rfl⟩
    rw [hsaid, List.mem_singleton] at hmem'
    obtain ⟨rfl, rfl⟩ := Occurrence.published.inj hmem'
    refine ⟨phase?_eq_none.mpr (registration?_size v), newcomer r g b name source p, ?_, rfl, rfl⟩
    rw [registration?, hset, Array.getElem?_push_size]

/-- What comes is said to have been published. -/
theorem published_of_phase (ht : Takes v top out) (hv : v.phase? h = none) (hout : out.1.phase? h = some .active) :
    ∃ r, .published r h ∈ out.2 := by
  have hnew : v.registration? h = none := phase?_eq_none.mp hv
  have hsome : (out.1.registration? h).isSome := by
    rw [phase?, Option.map_eq_some_iff] at hout
    obtain ⟨x, hx, -⟩ := hout
    rw [hx]
    rfl
  have hge : ¬ h < v.registrations.size := by
    rw [lt_size_iff, hnew]
    simp
  have hlt := lt_size_iff.mpr hsome
  cases ht.grows with
  | same hsize =>
    rw [hsize] at hlt
    exact absurd hlt hge
  | @published q g b name source p hg hset hsaid =>
    rw [hset, Array.size_push] at hlt
    obtain rfl : h = v.registrations.size := Nat.le_antisymm (Nat.le_of_lt_succ hlt) (Nat.le_of_not_lt hge)
    have hmem : Occurrence.published q v.registrations.size ∈ out.2.filter Occurrence.isPublished := by
      rw [hsaid]
      exact List.mem_singleton_self _
    exact ⟨q, (List.mem_filter.mp hmem).1⟩

/-- Of what is said to have been withdrawn, the withdrawal starts, and the ledger stays. -/
theorem phase_of_retired (hs : Step v top out) (hmem : .retired r h ∈ out.2) :
    v.phase? h = some .active ∧ out.1.phase? h = some .unregistering ∧
      ∀ (q : Nat) (g : Registry α), v.registries[q]? = some g → ∃ k, out.1.registries[q]? = some k ∧ k.ledger = g.ledger := by
  rcases hs.tells hmem rfl with ⟨_, hq⟩ | htells
  · cases hq
  · cases htells with
    | @retired top f k r g h b os hg hactive =>
      refine ⟨isActive_iff.mp hactive, ?_, fun k l hl => ?_⟩
      · show (v.setPhase h .unregistering).phase? h = _
        rw [phase?_setPhase, if_pos rfl, isActive_iff.mp hactive]
        rfl
      · show ∃ k', (v.registries.setIfInBounds r (g.unlist b h))[k]? = some k' ∧ k'.ledger = l.ledger
        rw [Array.getElem?_setIfInBounds]
        split
        case isTrue hr =>
          subst hr
          obtain rfl := Option.some.inj (hg.symm.trans hl)
          rw [if_pos (Array.getElem?_eq_some_iff.mp hg).1]
          exact ⟨_, rfl, rfl⟩
        case isFalse => exact ⟨l, hl, rfl⟩

/-- Where nothing is said to come or go, nothing is done. -/
theorem deed_quiet (hst : Standing (v.onto top) g) (ht : Takes v top out) (hpublished : ∀ r, .published r h ∉ out.2)
    (hretired : ∀ r, .retired r h ∉ out.2) : Deed (v.phase? h) (out.1.phase? h) [] := by
  rcases phase_step hst ht.step h with hsame | ⟨hv, hout⟩ | ⟨-, -, r, hmem⟩ | ⟨hv, hout, -⟩
  · rw [hsame]
    exact .nothing _
  · obtain ⟨r, hmem⟩ := published_of_phase ht hv hout
    exact absurd hmem (hpublished r)
  · exact absurd hmem (hretired r)
  · rw [hv, hout]
    exact .drained

/-! ### What a turn does -/

theorem registered_mem_deeds : .registered ∈ deeds os h ↔ ∃ r, .published r h ∈ os := by
  rw [deeds, List.mem_filterMap]
  constructor
  · intro hmem
    obtain ⟨o, ho, hdeed⟩ := hmem
    cases o <;> simp_all [Occurrence.deed?]
    exact ⟨_, ho⟩
  · intro hmem
    obtain ⟨r, hmem⟩ := hmem
    exact ⟨_, hmem, by simp [Occurrence.deed?]⟩

theorem unregistering_mem_deeds : .unregistering ∈ deeds os h ↔ ∃ r, .retired r h ∈ os := by
  rw [deeds, List.mem_filterMap]
  constructor
  · intro hmem
    obtain ⟨o, ho, hdeed⟩ := hmem
    cases o <;> simp_all [Occurrence.deed?]
    exact ⟨_, ho⟩
  · intro hmem
    obtain ⟨r, hmem⟩ := hmem
    exact ⟨_, hmem, by simp [Occurrence.deed?]⟩

/-- A turn does at most one thing to a registration, and it changes only what is indexed. -/
theorem deeds_turn (ht : Turn v top ns p) (h : Handle) : deeds ns h = [] ∨
    ∃ kind, deeds ns h = [kind] ∧ (kind = .modified → ∃ (r : Nat) (g : Registry α) (x : Registration α),
      v.registries[r]? = some g ∧ v.registration? h = some x ∧ g.isIndexed x.bundle h = true) := by
  cases ht with
  | holds => exact Or.inl rfl
  | declines => exact Or.inl rfl
  | starts => exact Or.inl rfl
  | publishes hg he =>
    rw [he, deeds_cons, deeds_cons, deeds_announced]
    simp only [Occurrence.deed?]
    split
    · exact Or.inr ⟨.registered, rfl, by simp⟩
    · exact Or.inl rfl
  | @replaces r g t q x e hg hx hindexed he =>
    rw [he, deeds_cons, deeds_cons, deeds_announced]
    simp only [Occurrence.deed?]
    split
    · rename_i ht
      obtain rfl := beq_iff_eq.mp ht
      exact Or.inr ⟨.modified, rfl, fun _ => ⟨r, g, x, hg, hx, hindexed⟩⟩
    · exact Or.inl rfl
  | tells hg he =>
    rw [he, deeds_cons, deeds_announced]
    exact Or.inl rfl
  | withdraws =>
    rw [deeds_cons, deeds_cons, deeds_asks]
    simp only [Occurrence.deed?]
    split
    · exact Or.inr ⟨.unregistering, rfl, by simp⟩
    · exact Or.inl rfl
  | sweeps =>
    rw [deeds_cons, deeds_asks]
    simp only [Occurrence.deed?]
    split
    · exact Or.inr ⟨.unregistering, rfl, by simp⟩
    · exact Or.inl rfl
  | goesOn => exact Or.inl rfl
  | hands => exact Or.inl rfl
  | ends =>
    left
    unfold said
    split <;> rfl

/-- What a move does to a registration fits its phase. -/
theorem deed_takes (hst : Standing (v.onto top) g) (ht : Takes v top out) (h : Handle) :
    Deed (v.phase? h) (out.1.phase? h) (deeds out.2 h) := by
  obtain ⟨p, hturn, -⟩ := ht.turn
  have hquiet : .registered ∉ deeds out.2 h → .unregistering ∉ deeds out.2 h → Deed (v.phase? h) (out.1.phase? h) [] :=
    fun hpublished hretired => deed_quiet hst ht (fun r hmem => hpublished (registered_mem_deeds.mpr ⟨r, hmem⟩))
      fun r hmem => hretired (unregistering_mem_deeds.mpr ⟨r, hmem⟩)
  rcases deeds_turn hturn h with hnone | ⟨kind, hone, hindexed⟩
  · rw [deeds_news] at hnone
    rw [hnone] at hquiet ⊢
    exact hquiet (by simp) (by simp)
  · rw [deeds_news] at hone
    rw [hone] at hquiet ⊢
    cases kind with
    | registered =>
      obtain ⟨r, hmem⟩ := registered_mem_deeds.mp (hone ▸ List.mem_singleton_self _)
      obtain ⟨hv, x, hx, -, hphase⟩ := registration_of_published ht hmem
      rw [hv, phase?_of_some hx, hphase]
      exact .published
    | modified =>
      obtain ⟨r, k, x, hk, hx, hindexed⟩ := hindexed rfl
      obtain ⟨-, rfl⟩ := sole_get (show v.registries = #[g] from hst.sole) hk
      have hactive := (hst.listed h x hx).mp hindexed
      have hv : v.phase? h = some .active := by rw [phase?_of_some hx, hactive]
      have hsame := hquiet (by simp) (by simp)
      rw [hv] at hsame ⊢
      generalize out.1.phase? h = after at hsame ⊢
      cases hsame
      exact .replaced
    | unregistering =>
      obtain ⟨r, hmem⟩ := unregistering_mem_deeds.mp (hone ▸ List.mem_singleton_self _)
      obtain ⟨hv, hout, -⟩ := phase_of_retired ht.step hmem
      rw [hv, hout]
      exact .retired

theorem word_play {m : Move α} (hst : Standing w g) (hw : Word (w.phase? h) (deeds os h)) (hplay : w.play m = some out) :
    Word (out.1.phase? h) (deeds (os ++ out.2) h) := by
  obtain ⟨v, top, rfl, -, ht⟩ := takes_of_play hplay
  rw [deeds_append]
  exact hw.step (deed_takes hst ht h)

/-! ## What the sink is told -/

theorem question_of_asks {f : Frame α} {q : Question α} (hmem : .asked q ∈ f.asks) : f.question? = some q := by
  obtain ⟨q', hq, heq⟩ := List.mem_map.mp hmem
  obtain rfl := Occurrence.asked.inj heq
  exact Option.mem_toList.mp hq

/-- An event is told of by the operation that goes on top, about what it has just done. -/
theorem event_of_turn (ht : Turn v top ns p) {kind : EventKind} {old : Option Properties}
    (hmem : .asked (.event r kind h old) ∈ ns) :
    (∃ f fs, p = f :: fs ∧ f.question? = some (.event r kind h old)) ∧
      (kind = .registered → .published r h ∈ ns) ∧ (kind = .unregistering → .retired r h ∈ ns) := by
  have hannounced : ∀ {hasSink : Bool} {f : Frame α} {reply : Reply α},
      .asked (.event r kind h old) ∈ (announced hasSink f reply).1 →
      (announced hasSink f reply).2 = [f] ∧ f.question? = some (.event r kind h old) := by
    intro hasSink f reply hmem
    cases hasSink with
    | true => exact ⟨rfl, question_of_asks hmem⟩
    | false => cases List.mem_singleton.mp hmem
  have hleaving : ∀ {g : Registry α} {q : Nat} {t : Handle}, (leaving g q t).question? = some (.event r kind h old) →
      r = q ∧ h = t ∧ kind = .unregistering := by
    intro g q t hquestion
    unfold leaving at hquestion
    split at hquestion
    · cases hquestion
      exact ⟨rfl, rfl, rfl⟩
    · cases hquestion
  cases ht with
  | holds => cases hmem
  | declines => simp at hmem
  | starts => simp at hmem
  | publishes hg he =>
    obtain ⟨hp, hquestion⟩ := hannounced (by simpa [he] using hmem)
    rw [he, hp]
    refine ⟨⟨_, [], rfl, hquestion⟩, ?_⟩
    cases hquestion
    exact ⟨fun _ => List.mem_cons_of_mem _ (List.mem_cons_self ..), nofun⟩
  | replaces hg hx hindexed he =>
    obtain ⟨hp, hquestion⟩ := hannounced (by simpa [he] using hmem)
    rw [he, hp]
    refine ⟨⟨_, [], rfl, hquestion⟩, ?_⟩
    cases hquestion
    exact ⟨nofun, nofun⟩
  | tells hg he =>
    obtain ⟨hp, hquestion⟩ := hannounced (by simpa [he] using hmem)
    rw [he, hp]
    refine ⟨⟨_, [], rfl, hquestion⟩, ?_⟩
    cases hquestion
    exact ⟨nofun, nofun⟩
  | withdraws hg =>
    have hquestion := question_of_asks (by simpa using hmem)
    obtain ⟨rfl, rfl, rfl⟩ := hleaving hquestion
    exact ⟨⟨_, [], rfl, hquestion⟩, nofun, fun _ => List.mem_cons_of_mem _ (List.mem_cons_self ..)⟩
  | sweeps hg =>
    have hquestion := question_of_asks (by simpa using hmem)
    obtain ⟨rfl, rfl, rfl⟩ := hleaving hquestion
    exact ⟨⟨_, _, rfl, hquestion⟩, nofun, fun _ => List.mem_cons_self ..⟩
  | goesOn => cases hmem
  | hands => cases hmem
  | ends =>
    -- A reply tells nobody.
    unfold said at hmem
    split at hmem <;> simp at hmem

/-- While the sink is told of an event, it is the client's turn. -/
theorem event_of_play {m : Move α} (hplay : w.play m = some out) {kind : EventKind} {old : Option Properties}
    (hmem : .asked (.event r kind h old) ∈ out.2) : out.1.isClientsTurn = true ∧
      ∃ v top, w = v.onto top ∧ Takes v top out ∧ (kind = .registered → .published r h ∈ out.2) ∧
        (kind = .unregistering → .retired r h ∈ out.2) := by
  obtain ⟨v, top, rfl, -, ht⟩ := takes_of_play hplay
  obtain ⟨p, hturn, hstack⟩ := ht.turn
  obtain ⟨⟨f, fs, rfl, hquestion⟩, hpublished, hretired⟩ := event_of_turn hturn ((mem_news rfl).mpr hmem)
  refine ⟨?_, v, top, rfl, ht, fun hkind => (mem_news rfl).mp (hpublished hkind), fun hkind => (mem_news rfl).mp (hretired hkind)⟩
  rw [isClientsTurn, pending?, hstack]
  simp [hquestion]

/-! ## When something was published -/

theorem leastId_le {hs : List Handle} (ht : w.leastId hs = some t) : ∀ k ∈ hs, w.serviceId t ≤ w.serviceId k := by
  induction hs generalizing t with
  | nil => cases ht
  | cons k hs ih =>
    rw [leastId] at ht
    intro k' hk'
    cases hm : w.leastId hs with
    | none =>
      rw [hm] at ht
      obtain rfl := Option.some.inj ht
      rcases List.mem_cons.mp hk' with rfl | hk'
      · exact Nat.le_refl _
      · cases hs with
        | nil => cases hk'
        | cons j js =>
          rw [leastId] at hm
          split at hm
          · split at hm <;> cases hm
          · cases hm
    | some m =>
      rw [hm] at ht
      dsimp only at ht
      have hrest := ih hm
      split at ht
      · rename_i hlt
        obtain rfl := Option.some.inj ht
        rcases List.mem_cons.mp hk' with rfl | hk'
        · exact Nat.le_of_lt hlt
        · exact hrest k' hk'
      · rename_i hle
        obtain rfl := Option.some.inj ht
        rcases List.mem_cons.mp hk' with rfl | hk'
        · exact Nat.le_refl _
        · exact Nat.le_trans (Nat.le_of_not_lt hle) (hrest k' hk')

theorem leastId_isSome {hs : List Handle} (ht : t ∈ hs) : ∃ m, w.leastId hs = some m := by
  cases hs with
  | nil => cases ht
  | cons k hs =>
    rw [leastId]
    split
    · split <;> exact ⟨_, rfl⟩
    · exact ⟨_, rfl⟩

/-- The registration `x` is active and found by every lookup at registry `r` that it fits. -/
structure Found (w : World α) (r : Nat) (h : Handle) (x : Registration α) : Prop where
  turn : w.isClientsTurn = true
  registration : w.registration? h = some x
  active : x.phase = .active
  listed : ∀ name ∈ [none, some x.name], ∃ hs, w.Lists r (.find name false) hs ∧ h ∈ hs
  tested : ∀ g, w.registries[r]? = some g → ∀ name ∈ [none, some x.name], (h, x.properties) ∈ w.candidates g name
  one : ∃ out q, w.play (.call r (.findOne x.name)) = some out ∧ out.2.getLast? = some (.returned (.reference (some q))) ∧
    w.hasName x.name q.target = true ∧ w.serviceId q.target ≤ w.serviceId h
  own : ∃ hs, w.Lists r (.registered x.bundle) hs ∧ h ∈ hs
  hook : ∀ g, w.registries[r]? = some g → x.name = g.config.hookName → ∃ hs, w.Lists r .hooks hs ∧ h ∈ hs
  counted : ∀ g, w.registries[r]? = some g → h ∈ w.active g

theorem mem_active (hi : w.Indexes r g) : h ∈ w.active g ↔ h ∈ w.publications r := by
  rw [active, List.mem_filter, mem_members hi, and_iff_left_iff_imp]
  intro hh
  obtain ⟨x, hx, -, hphase⟩ := isPublic_iff.mp (mem_publications.mp hh)
  rw [isActive_iff, phase?_of_some hx, hphase]

theorem mem_candidates {x : Registration α} (hactive : h ∈ w.active g) (hx : w.registration? h = some x)
    {name : Option String}
    (hname : name ∈ [none, some x.name]) : (h, x.properties) ∈ w.candidates g name := by
  refine List.mem_filterMap.mpr ⟨h, List.mem_filter.mpr ⟨hactive, ?_⟩, ?_⟩
  · rcases List.mem_cons.mp hname with rfl | hname
    · rfl
    · obtain rfl := List.mem_singleton.mp hname
      rw [Option.all_some]
      exact hasName_iff.mpr ⟨x, hx, rfl⟩
  · rw [hx]
    rfl

theorem found_of_active {x : Registration α} (hi : w.Indexes r g) (hg : w.registries[r]? = some g)
    (hturn : w.isClientsTurn = true)
    (hx : w.registration? h = some x) (hhome : x.home = r) (hphase : x.phase = .active) : Found w r h x := by
  have hpublic : h ∈ w.publications r := mem_publications.mpr (isPublic_iff.mpr ⟨x, hx, hhome, hphase⟩)
  have hactive : h ∈ w.active g := (mem_active hi).mpr hpublic
  refine ⟨hturn, hx, hphase, fun name hname => ?_, fun k hk name hname => ?_, ?_, ?_, fun k hk hname => ?_, fun k hk => ?_⟩
  · have hcall : w.call r g (.find name false) = w.returnAll r ((w.candidates g name).map (·.1)) := by
      rw [call, find, if_neg Bool.false_ne_true]
    exact ⟨_, lists_of_returnAll hg hturn rfl hcall, List.mem_map.mpr ⟨_, mem_candidates hactive hx hname, rfl⟩⟩
  · obtain rfl := Option.some.inj (hg.symm.trans hk)
    exact mem_candidates hactive hx hname
  · have hmem : h ∈ (w.active g).filter (w.hasName x.name) :=
      List.mem_filter.mpr ⟨hactive, hasName_iff.mpr ⟨x, hx, rfl⟩⟩
    obtain ⟨t, ht⟩ := leastId_isSome (w := w) hmem
    have hcall : w.call r g (.findOne x.name) =
        after (w.mint r t).2.2 ((w.mint r t).2.1.finish (.reference (w.mint r t).1)) := by
      rw [call, findOne, ht]
    have hmint : (w.mint r t).1 = some (g.mint (w.serviceId t) t).1 := by
      rw [mint, hg]
    refine ⟨_, (g.mint (w.serviceId t) t).1, play_call hturn rfl hg, ?_, (List.mem_filter.mp (mem_of_leastId ht)).2,
      leastId_le ht h hmem⟩
    rw [hcall, hmint, finish_eq ((isClientsTurn_eq (stack_mint w r t)).trans hturn) (by simp)]
    show (_ :: (_ ++ [_])).getLast? = _
    rw [← List.cons_append, List.getLast?_append]
    rfl
  · refine ⟨_, listsPublications_of hi hg hturn x.bundle, List.mem_filter.mpr ⟨hpublic, ?_⟩⟩
    exact isOf_iff.mpr ⟨x, hx, rfl⟩
  · obtain rfl := Option.some.inj (hg.symm.trans hk)
    have hcall : w.call r g .hooks = w.returnAll r g.hooks := by rw [call]
    exact ⟨_, lists_of_returnAll hg hturn rfl hcall, (mem_hooks hi).mpr ⟨x, hx, hhome, hphase, hname⟩⟩
  · obtain rfl := Option.some.inj (hg.symm.trans hk)
    exact hactive

/-! ## When something goes -/

variable {b : BundleId} {ref : Reference} {fresh : Bool} {o : α} {l : Ledger α} {m : Move α}

def Yields (w : World α) (ms : List (Move α)) (o : α) : Prop :=
  ∃ out, w.run ms = some out ∧ out.2.getLast? = some (.returned (.object (some o)))

def Serving (w : World α) (r : Nat) (b : BundleId) (ref : Reference) : Prop :=
  ∃ out, w.play (.call r (.get b ref)) = some out ∧ .acquired r b ref ∈ out.2 ∧
    ((∃ o, out.1.Yields [.tick, .tick] o) ∨
      .asked (.supply ref.target b) ∈ out.2 ∧ ∀ o, out.1.Yields [.answer (.supplied (some o)), .tick, .tick] o)

def Releasing (w : World α) (r : Nat) (b : BundleId) (ref : Reference) (u : Usage α) : Prop :=
  ∃ out, w.play (.call r (.unget b ref)) = some out ∧
    (1 < u.count ∧ .released r b ref (u.count - 1) ∈ out.2 ∨ u.count ≤ 1 ∧ .flushed r b ref ∈ out.2)

theorem Yields.cons {w' : World α} {ms : List (Move α)} {os : List (Occurrence α)} (hplay : w.play m = some (w', os))
    (hy : Yields w' ms o) : w.Yields (m :: ms) o := by
  obtain ⟨out, hrun, hlast⟩ := hy
  refine ⟨(out.1, os ++ out.2), ?_, ?_⟩
  · rw [run, hplay]
    show (w'.run ms).bind _ = _
    rw [hrun]
    rfl
  · show (os ++ out.2).getLast? = _
    rw [List.getLast?_append, hlast]
    rfl

/-- What was decided is returned. -/
theorem yields_decided (hturn : v.isClientsTurn = true) :
    Yields (v.onto (some (.releasing r h [] (.got b ref (some o))))) [.tick] o := by
  refine ⟨((v.conclude r h (.got b ref (some o))).1, (v.conclude r h (.got b ref (some o))).2 ++ []), rfl, ?_⟩
  rw [said_of_conclude hturn]
  rfl

/-- The object at hand is returned, where the decision is for it. -/
theorem yields_settling (hturn : v.isClientsTurn = true) (hg : v.registries[r]? = some g)
    (he : v.settlement g h b ref fresh (some o) = ⟨some o, [], l⟩) :
    Yields (v.onto (some (.settling r h b ref fresh (some o)))) [.tick, .tick] o := by
  have hsettle : (v.onto (some (.settling r h b ref fresh (some o)))).play .tick =
      some (v.settle r g h b ref fresh (some o)) := by
    show (v.registries[r]?).map _ = _
    rw [hg]
    rfl
  have hplaced : v.settle r g h b ref fresh (some o) =
      ((v.setRegistry r { g with ledger := l }).onto (some (.releasing r h [] (.got b ref (some o)))),
        [.decided r b ref (some o)]) := by
    rw [settle, he]
    simp only [release, List.map_nil, ite_self]
    rfl
  exact .cons (hsettle.trans (congrArg some hplaced)) (yields_decided ((isClientsTurn_eq rfl).trans hturn))

/-- Whoever has a reference to what is valid is served. -/
theorem serving_of_valid (hst : Standing w g) (hturn : w.isClientsTurn = true) (hvalid : w.isValid ref.target = true)
    (hknown : w.knows ref = true) : w.Serving 0 b ref := by
  have hg : w.registries[0]? = some g := by
    rw [hst.sole]
    rfl
  have hset : (w.setRegistry 0 { g with ledger := (g.ledger.acquire b ref).2 }).registries[0]? =
      some { g with ledger := (g.ledger.acquire b ref).2 } := by
    rw [sole_set hst.sole]
    rfl
  have hturn' : (w.setRegistry 0 { g with ledger := (g.ledger.acquire b ref).2 }).isClientsTurn = true :=
    (isClientsTurn_eq rfl).trans hturn
  have hvalid' : (w.setRegistry 0 { g with ledger := (g.ledger.acquire b ref).2 }).isValid ref.target = true := hvalid
  obtain ⟨x, hx⟩ := Option.isSome_iff_exists.mp (isSome_of_isValid hvalid)
  have hbehind : w.behind? ref = some x := behind?_eq_some.mpr ⟨hvalid, hx⟩
  have hplay := play_call hturn (show w.allows (.get b ref) = true from hknown) hg
  rw [call, get_of_valid w 0 g b hbehind] at hplay
  refine ⟨_, hplay, List.mem_cons_of_mem _ (List.mem_cons_self ..), ?_⟩
  -- A fresh object is kept: the entry that the call has just made or found caches none.
  have hkept : ∀ o, (g.ledger.acquire b ref).1 = none → ∃ l,
      (w.setRegistry 0 { g with ledger := (g.ledger.acquire b ref).2 }).settlement
        { g with ledger := (g.ledger.acquire b ref).2 } ref.target b ref true (some o) = ⟨some o, [], l⟩ := by
    intro o hnone
    have hentry := (Ledger.edit_acquire hst.sound.ledger b ref).usage?_after
    have hobject : (Ledger.usedBy ref (g.ledger.usage? b ref.id)).object = none := by
      rw [Ledger.acquire] at hnone
      cases hu : g.ledger.usage? b ref.id with
      | none => rfl
      | some u =>
        rw [hu] at hnone
        exact hnone
    have hstore : (g.ledger.acquire b ref).2.store b ref.id o =
        (.kept, ((g.ledger.acquire b ref).2.store b ref.id o).2) := by
      simp only [Ledger.store, hentry, hobject]
    refine ⟨((g.ledger.acquire b ref).2.store b ref.id o).2, ?_⟩
    unfold settlement
    rw [hvalid']
    dsimp only
    rw [hstore]
  cases hcached : (g.ledger.acquire b ref).1 with
  | some o =>
    refine Or.inl ⟨o, yields_settling hturn' hset (l := (g.ledger.acquire b ref).2) ?_⟩
    unfold settlement
    rw [hvalid']
  | none =>
    cases hsource : x.source with
    | object o =>
      obtain ⟨l, hl⟩ := hkept o hcached
      exact Or.inl ⟨o, yields_settling hturn' hset hl⟩
    | factory =>
      refine Or.inr ⟨by simp [after, place, fetch, Frame.question?], fun o => ?_⟩
      obtain ⟨l, hl⟩ := hkept o hcached
      exact .cons rfl (yields_settling hturn' hset hl)

theorem releasing_of_valid (hst : Standing w g) (hturn : w.isClientsTurn = true) (hvalid : w.isValid ref.target = true)
    (hknown : w.knows ref = true) {u : Usage α} (hu : g.ledger.usage? b ref.id = some u) : w.Releasing 0 b ref u := by
  have hg : w.registries[0]? = some g := by
    rw [hst.sole]
    rfl
  refine ⟨_, play_call hturn (show w.allows (.unget b ref) = true from hknown) hg, ?_⟩
  rcases Ledger.release_cases hst.sound.ledger b ref.id false with ⟨hnone, -⟩ | ⟨u', hu', -, hmore, hrel, -⟩ |
    ⟨u', hu', hlast, hrel, -⟩
  · cases hu.symm.trans hnone
  · obtain rfl := Option.some.inj (hu.symm.trans hu')
    have hpair : g.ledger.release b ref.id false = (.decremented (u.count - 1), (g.ledger.release b ref.id false).2) :=
      Prod.ext hrel rfl
    left
    refine ⟨hmore, ?_⟩
    simp only [call, unget, ungetOne, hvalid, Bool.not_true]
    rw [hpair]
    simp [after]
  · obtain rfl := Option.some.inj (hu.symm.trans hu')
    have hpair : g.ledger.release b ref.id false = (.flushed u.object, (g.ledger.release b ref.id false).2) :=
      Prod.ext hrel rfl
    right
    refine ⟨by simpa using hlast, ?_⟩
    simp only [call, unget, ungetOne, hvalid, Bool.not_true]
    rw [hpair]
    dsimp only
    cases u.object.filter fun _ => w.isAlive ref.target && w.isFactory ref.target with
    | none => simp [after]
    | some o => simp [after]

/-- What was active in the world `before` is being withdrawn: whoever has a reference may use it as
    ever, but no lookup that starts now comes upon it. -/
structure Leaves (before w : World α) (r : Nat) (h : Handle) : Prop where
  turn : w.isClientsTurn = true
  phase : w.phase? h = some .unregistering
  valid : w.isValid h = true
  ledger : ∀ g, before.registries[r]? = some g → ∃ k, w.registries[r]? = some k ∧ k.ledger = g.ledger
  serving : ∀ b ref, ref.target = h → w.knows ref = true → w.Serving r b ref
  releasing : ∀ b ref g u, ref.target = h → w.knows ref = true → w.registries[r]? = some g →
    g.ledger.usage? b ref.id = some u → w.Releasing r b ref u
  lookup : ∀ op ms out reply, op.listsActive = true → Returns w r op ms out reply → ∀ q ∈ reply.mentions, q.target ≠ h
  counted : ∀ g, w.registries[r]? = some g → h ∉ w.active g

theorem leaves_of_retired {before : World α} (hst : Standing w g) (hi : w.Indexes 0 g) (hturn : w.isClientsTurn = true)
    (hphase : w.phase? h = some .unregistering)
    (hledger : ∀ g, before.registries[0]? = some g → ∃ k, w.registries[0]? = some k ∧ k.ledger = g.ledger) :
    Leaves before w 0 h := by
  have hvalid : w.isValid h = true := isValid_iff.mpr (Or.inr hphase)
  have hinactive : w.isActive h = false := by
    rw [isActive, hphase]
    rfl
  have hsole : ∀ k, w.registries[0]? = some k → k = g := fun k hk => (sole_get hst.sole hk).2
  have howned : ∀ b, h ∉ (g.owned b).filter w.isValid := by
    intro b hb
    obtain ⟨x, hx, -, -, hactive⟩ := (mem_owned hi).mp (List.mem_filter.mp hb).1
    rw [phase?_of_some hx, hactive] at hphase
    cases hphase
  have hhooks : h ∉ g.hooks := by
    intro hmem
    rw [hst.hooked h hmem] at hinactive
    cases hinactive
  refine ⟨hturn, hphase, hvalid, hledger, ?_, ?_, ?_, ?_⟩
  · rintro b ref rfl hknown
    exact serving_of_valid hst hturn hvalid hknown
  · rintro b ref k u rfl hknown hk hu
    obtain rfl := hsole k hk
    exact releasing_of_valid hst hturn hvalid hknown hu
  · intro op ms out reply hop hret
    refine mentions_of_spares (fun o hplay => ?_) hret
    rw [called_of_play hst.sole hplay]
    exact .after (spares_lookup hinactive howned hhooks hturn hop) _
  · intro k hk hmem
    rw [active, List.mem_filter, hinactive] at hmem
    cases hmem.2

/-! ## Every run -/

/-- What the sink was told of `h`, and the calls that did it. -/
structure Told (w : World α) (os : List (Occurrence α)) (h : Handle) : Prop where
  unpublished : w.registration? h = none → about (logOf os).events h = []
  /-- The sink was told that it was published, of each call that set its properties, and last that its
      withdrawal starts. -/
  word : (w.registration? h).isSome → about (logOf os).events h =
    .registered :: (List.replicate ((logOf os).settings h) .modified ++ if w.isActive h then [] else [.unregistering])
  /-- Its withdrawal has started if and only if a call withdrew it. -/
  withdrawn : .unregistering ∈ about (logOf os).events h ↔
    ∃ c ∈ (logOf os).calls, c.op.withdraws = true ∧ h ∈ c.retired
  once : (logOf os).withdrawals h ≤ 1
  reports : ∀ e ∈ (logOf os).ended, Reports e.1.op e.1.retired e.2
  rest : w.stack = [] → (logOf os).pending = []

theorem told_of_logs (hl : Logs (logOf os) os w.stack) (hw : Word (w.phase? h) (deeds os h)) : w.Told os h := by
  have hsettings := hl.settings h
  have hwithdrawals := hl.withdrawals h
  refine ⟨fun hnone => ?_, fun hsome => ?_, ?_, ?_, hl.reports, fun hrest => ?_⟩
  · rw [hl.events]
    rw [phase?_eq_none.mpr hnone] at hw
    generalize deeds os h = ks at hw
    cases hw
    rfl
  · obtain ⟨x, hx⟩ := Option.isSome_iff_exists.mp hsome
    rw [hl.events, hsettings, isActive]
    rw [phase?_of_some hx] at hw ⊢
    generalize deeds os h = ks at hw
    generalize x.phase = p at hw
    cases hw with
    | active n => simp
    | withdrawn hp n => simp [hp]
  · rw [hl.events, ← List.count_pos_iff, ← hwithdrawals, Log.withdrawals, List.count_pos_iff, List.mem_flatMap]
    refine exists_congr fun c => and_congr_right fun hc => ⟨fun hmem => ⟨?_, hmem⟩, fun hmem => hmem.2⟩
    exact hl.tracks.withdraws c hc (List.ne_nil_of_mem hmem)
  · rw [hwithdrawals]
    generalize w.phase? h = phase at hw
    generalize deeds os h = ks at hw
    cases hw with
    | unpublished => exact Nat.zero_le 1
    | active n => simp [List.count_replicate]
    | withdrawn hp n => simp [List.count_replicate]
  · have hfits := hl.fits
    rw [hrest] at hfits
    generalize (logOf os).pending = cs at hfits
    cases hfits
    rfl

structure Heard (c : Config) (w : World α) (os : List (Occurrence α)) : Prop where
  standing : ∃ g, Standing w g
  tallied : Tallied [(c, true)] w os
  logs : Logs (logOf os) os w.stack
  word : ∀ h, Word (w.phase? h) (deeds os h)

theorem heard_start (c : Config) : Heard c (start [(c, true)] : World α) [] where
  standing := ⟨_, standing_start c true⟩
  tallied := tallied_start _
  logs := ⟨.nil, fun e he => (by cases he), fun h => rfl, fun h => rfl, fun h => rfl⟩
  word h := .unpublished

theorem heard_play {c : Config} (hh : Heard c w os) (hplay : w.play m = some out) : Heard c out.1 (os ++ out.2) := by
  have hsink : ∀ (r : Nat) (g : Registry α), w.registries[r]? = some g → g.hasSink = true := by
    intro r g hg
    have hsetup := hh.tallied.setup r g hg
    cases r with
    | zero => exact (congrArg Prod.snd (Option.some.inj hsetup)).symm
    | succ r => cases hsetup
  obtain ⟨g, hst⟩ := hh.standing
  exact ⟨standing_play hst hplay, tallied_play hh.tallied hplay, logs_play hh.logs hsink hplay,
    fun h => word_play hst (hh.word h) hplay⟩

theorem heard_run {c : Config} {ms : List (Move α)} (hrun : (start [(c, true)]).run ms = some out) :
    Heard c out.1 out.2 :=
  run_induction (P := Heard c) (fun _ _ _ _ => heard_play) ms _ [] out (heard_start c) hrun

/-- In every run of a registry with a sink, the sink is told of a registration that it was published,
    once of each call that set its properties, and then at most once that its withdrawal starts, by
    the one call that withdrew it. When the first is told lookups find it; when the last is told
    they do not, but it is used as ever. -/
theorem event_protocol {c : Config} {before : List (Move α)} (hbefore : (start [(c, true)]).run before = some (w, os))
    (h : Handle) : w.Told os h ∧ ∀ m out, w.play m = some out → ∀ old,
      (.asked (.event 0 .registered h old) ∈ out.2 → ∃ x, Found out.1 0 h x) ∧
      (.asked (.event 0 .unregistering h old) ∈ out.2 → Leaves w out.1 0 h) := by
  have hh : Heard c w os := heard_run hbefore
  refine ⟨told_of_logs hh.logs (hh.word h), fun m out hplay old => ?_⟩
  have hh' := heard_play hh hplay
  obtain ⟨g, hst⟩ := hh'.standing
  have hg : out.1.registries[0]? = some g := by
    rw [hst.sole]
    rfl
  have hi := hh'.tallied.catalogued.indexes 0 g hg
  constructor
  · intro hmem
    obtain ⟨hturn, v, top, rfl, ht, hpublished, -⟩ := event_of_play hplay hmem
    obtain ⟨-, x, hx, hhome, hphase⟩ := registration_of_published ht (hpublished rfl)
    exact ⟨x, found_of_active hi hg hturn hx hhome hphase⟩
  · intro hmem
    obtain ⟨hturn, v, top, rfl, ht, -, hretired⟩ := event_of_play hplay hmem
    obtain ⟨-, hphase, hledger⟩ := phase_of_retired ht.step (hretired rfl)
    exact leaves_of_retired hst hi hturn hphase (hledger 0)

/-- The sink changes the properties of what it is told of. -/
def changedInEvent : List (Move Nat) :=
  [.call 0 (.register 7 "a" (.object 1) none), .call 0 (.setProperties 0 .empty)]

def tellsWithdrawal : Occurrence Nat → Bool
  | .asked (.event 0 .unregistering 0 none) => true
  | _ => false

theorem eq_of_tellsWithdrawal {o : Occurrence Nat} (ho : tellsWithdrawal o = true) :
    o = .asked (.event 0 .unregistering 0 none) := by
  unfold tellsWithdrawal at ho
  split at ho
  · rfl
  · cases ho

/-- Told of the change, it withdraws the registration. -/
theorem event_protocol_changedInEvent : ∃ w os out, (start [(Config.standard, true)]).run changedInEvent = some (w, os) ∧
    w.Told os 0 ∧ about (logOf os).events 0 = [.registered, .modified] ∧ w.play (.call 0 (.unregister 7 0)) = some out ∧
    .asked (.event 0 .unregistering 0 none) ∈ out.2 ∧ Leaves w out.1 0 0 := by
  have hany : ((start [(Config.standard, true)]).run changedInEvent).any (fun out =>
      about (logOf out.2).events 0 == [.registered, .modified] &&
        (out.1.play (.call 0 (.unregister 7 0))).any (·.2.any tellsWithdrawal)) = true := by
    decide +kernel
  obtain ⟨⟨w, os⟩, hrun, hout⟩ := (Option.any_eq_true _ _).mp hany
  obtain ⟨hevents, hnext⟩ := Bool.and_eq_true_iff.mp hout
  obtain ⟨out, hplay, htells⟩ := (Option.any_eq_true _ _).mp hnext
  obtain ⟨o, hmem, ho⟩ := List.any_eq_true.mp htells
  rw [eq_of_tellsWithdrawal ho] at hmem
  obtain ⟨htold, hmoves⟩ := event_protocol hrun 0
  exact ⟨w, os, out, hrun, htold, beq_iff_eq.mp hevents, hplay, hmem, (hmoves _ out hplay none).2 hmem⟩

end World

end Switchboard
