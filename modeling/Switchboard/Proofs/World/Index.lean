/-
  Switchboard.Proofs.World.Index — the index lists what is active.

  Take any number of registries. What a registry publishes is active until its withdrawal starts
  (`publications`). At every moment its index lists, under each bundle, exactly the bundle's
  publications in the order they were published, and its hooks are exactly those published under
  the hook name (`Indexes`). For a registration leaves both in the section in which it stops being
  active, and only its own registry ever lists it.

  So the index has no registration twice, no slot of it is empty, and each is in the order of
  service ids (`IndexFits`); the registry counts what was published less the withdrawals that
  started, answers with what it lists, and declines what another registry published
  (`index_sound`).
-/

import Switchboard.Proofs.World.Turn

namespace Switchboard

variable {α : Type}

def Occurrence.isPublishedAt (r : Nat) : Occurrence α → Bool
  | published q _ => q == r
  | _ => false

def Occurrence.isRetiredAt (r : Nat) : Occurrence α → Bool
  | retired q _ => q == r
  | _ => false

def publishedAt (os : List (Occurrence α)) (r : Nat) : Nat := os.countP (·.isPublishedAt r)

def retiredAt (os : List (Occurrence α)) (r : Nat) : Nat := os.countP (·.isRetiredAt r)

def Registry.Keeps (g k : Registry α) : Prop := k = { g with ledger := k.ledger, references := k.references }

namespace World

variable {w w' v : World α} {g g' k : Registry α} {top f : Option (Frame α)} {out : Outcome α} {h t : Handle} {r q : Nat}
  {b : BundleId} {os : List (Occurrence α)}

/-! ## What is published -/

def isOf (w : World α) (b : BundleId) (h : Handle) : Bool := (w.registration? h).any (·.bundle == b)

def isPublic (w : World α) (r : Nat) (h : Handle) : Bool :=
  (w.registration? h).any fun x => decide (x.home = r ∧ x.phase = .active)

/-- The active registrations of registry `r`, in the order they were published. -/
def publications (w : World α) (r : Nat) : List Handle := (List.range w.registrations.size).filter (w.isPublic r)

theorem isPublic_iff : w.isPublic r h = true ↔ ∃ x, w.registration? h = some x ∧ x.home = r ∧ x.phase = .active := by
  simp [isPublic, Option.any_eq_true]

theorem isOf_iff : w.isOf b h = true ↔ ∃ x, w.registration? h = some x ∧ x.bundle = b := by
  simp [isOf, Option.any_eq_true]

theorem hasName_iff {name : String} : w.hasName name h = true ↔ ∃ x, w.registration? h = some x ∧ x.name = name := by
  simp [hasName, Option.any_eq_true]

theorem lt_size_iff : h < w.registrations.size ↔ (w.registration? h).isSome = true := by
  simp [registration?]

theorem mem_publications : h ∈ w.publications r ↔ w.isPublic r h = true := by
  rw [publications, List.mem_filter, List.mem_range, and_iff_right_iff_imp]
  intro hpublic
  obtain ⟨x, hx, -⟩ := isPublic_iff.mp hpublic
  rw [lt_size_iff, hx]
  rfl

theorem publications_rising (w : World α) (r : Nat) : (w.publications r).Pairwise (· < ·) :=
  List.pairwise_lt_range.filter _

theorem publications_congr (hsize : w'.registrations.size = w.registrations.size)
    (hpublic : ∀ t, w'.isPublic r t = w.isPublic r t) : w'.publications r = w.publications r := by
  rw [publications, publications, hsize]
  exact List.filter_congr fun t _ => hpublic t

theorem Alike.isPublic (ha : w.Alike w') (r : Nat) (t : Handle) : w'.isPublic r t = w.isPublic r t := by
  have hcore := congrArg (Option.any fun x => decide (x.home = r ∧ x.phase = .active)) (ha.registration t)
  rw [Option.any_map, Option.any_map] at hcore
  exact hcore

theorem publications_enlisted (w : World α) (r : Nat) (g : Registry α) (x : Registration α) (q : Nat) :
    (w.enlisted r g x).publications q =
      w.publications q ++ if x.home = q ∧ x.phase = .active then [w.registrations.size] else [] := by
  have hsize : (w.enlisted r g x).registrations.size = w.registrations.size + 1 := Array.size_push ..
  rw [publications, hsize, List.range_succ, List.filter_append, publications]
  congr 1
  · refine List.filter_congr fun t ht => ?_
    rw [isPublic, registration?_enlisted, if_neg (Nat.ne_of_lt (List.mem_range.mp ht))]
    rfl
  · rw [List.filter_singleton, isPublic, registration?_enlisted, if_pos rfl, Option.any_some]
    simp

theorem size_setPhase (w : World α) (h : Handle) (p : Phase) :
    (w.setPhase h p).registrations.size = w.registrations.size :=
  Array.size_modify

/-- What stops being active is published no more. -/
theorem publications_retired (w : World α) (h : Handle) (q : Nat) :
    (w.setPhase h .unregistering).publications q = (w.publications q).filter (· != h) := by
  rw [publications, size_setPhase, publications, List.filter_filter]
  refine List.filter_congr fun t _ => ?_
  rw [isPublic, registration?_setPhase, isPublic]
  by_cases ht : t = h
  · rw [if_pos ht, Option.any_map, ht]
    cases w.registration? h <;> simp
  · rw [if_neg ht]
    simp [ht]

/-- What was not active was not published before, either. -/
theorem isPublic_drained (hactive : w.isActive h = false) (q : Nat) (t : Handle) :
    (w.setPhase h .invalid).isPublic q t = w.isPublic q t := by
  rw [isPublic, registration?_setPhase, isPublic]
  by_cases ht : t = h
  · subst ht
    rw [if_pos rfl, Option.any_map]
    cases hx : w.registration? t with
    | none => rfl
    | some x =>
      rw [isActive, phase?_of_some hx] at hactive
      have hphase : x.phase ≠ .active := by simpa using hactive
      simp [hphase]
  · rw [if_neg ht]

/-! ## What the index lists -/

structure Indexes (w : World α) (r : Nat) (g : Registry α) : Prop where
  tidy : Shelf.Tidy g.index
  owned : ∀ b, g.owned b = (w.publications r).filter (w.isOf b)
  hooks : g.hooks = (w.publications r).filter (w.hasName g.config.hookName)
  ids : ∀ h x, w.registration? h = some x → x.home = r → x.id < g.nextService

def Rising (w : World α) : Prop :=
  ∀ h t x y, h < t → w.registration? h = some x → w.registration? t = some y → x.home = y.home → x.id < y.id

def Outgoing (w : World α) (k : Frame α) : Prop :=
  ∀ h, k.leaves h = true → (w.registration? h).isSome ∧ w.isActive h = false

structure Catalogued (w : World α) : Prop where
  indexes : ∀ (r : Nat) (g : Registry α), w.registries[r]? = some g → w.Indexes r g
  rising : w.Rising
  outgoing : ∀ k ∈ w.stack, w.Outgoing k

theorem isOf_step (hs : Step v top out) (ht : (v.registration? t).isSome) (b : BundleId) :
    out.1.isOf b t = v.isOf b t := by
  obtain ⟨x, hx⟩ := Option.isSome_iff_exists.mp ht
  obtain ⟨y, hy, hyx⟩ := origin_step hs hx
  have hbundle : y.bundle = x.bundle := (congrArg Registration.bundle hyx :)
  rw [isOf, isOf, hx, hy, Option.any_some, Option.any_some, hbundle]

theorem hasName_step (hs : Step v top out) (ht : (v.registration? t).isSome) (name : String) :
    out.1.hasName name t = v.hasName name t := by
  obtain ⟨x, hx⟩ := Option.isSome_iff_exists.mp ht
  obtain ⟨y, hy, hyx⟩ := origin_step hs hx
  have hname : y.name = x.name := (congrArg Registration.name hyx :)
  rw [hasName, hasName, hx, hy, Option.any_some, Option.any_some, hname]

theorem isSome_of_mem_publications (ht : t ∈ w.publications r) : (w.registration? t).isSome := by
  obtain ⟨x, hx, -⟩ := isPublic_iff.mp (mem_publications.mp ht)
  rw [hx]
  rfl

/-- Who is not active never becomes so again. -/
theorem inactive_step (hs : Step v top out) (hx : (v.registration? h).isSome) (hinactive : v.isActive h = false) :
    out.1.isActive h = false := by
  have hset : ∀ t p, p ≠ Phase.active → (v.setPhase t p).isActive h = false := by
    intro t p hp
    rw [isActive, phase?_setPhase]
    split
    · cases v.phase? h <;> simp [hp]
    · exact hinactive
  cases hs with
  | idle htop hi =>
    rw [isActive, hi.alike.phase?]
    exact hinactive
  | @publish r g b name source p =>
    show (v.enlisted r g _).isActive h = false
    rw [isActive, phase?, registration?_enlisted, if_neg]
    · exact hinactive
    · rintro rfl
      rw [registration?_size] at hx
      cases hx
  | retire => exact hset _ _ (by simp)
  | drain => exact hset _ _ (by simp)
  | _ => exact hinactive

/-- Where nothing is published, all there is was there before. -/
theorem registration_back (hs : Step v top out) (hsize : out.1.registrations.size = v.registrations.size)
    {y : Registration α} (hy : out.1.registration? h = some y) :
    ∃ x, v.registration? h = some x ∧ y.origin = x.origin := by
  have hlt : h < v.registrations.size := by
    rw [← hsize, lt_size_iff, hy]
    rfl
  obtain ⟨x, hx⟩ := Option.isSome_iff_exists.mp (lt_size_iff.mp hlt)
  obtain ⟨y', hy', hyx⟩ := origin_step hs hx
  obtain rfl := Option.some.inj (hy.symm.trans hy')
  exact ⟨x, hx, hyx⟩

theorem rising_step (hs : Step v top out) (hsize : out.1.registrations.size = v.registrations.size)
    (hrising : v.Rising) :
    out.1.Rising := by
  intro h t x y hlt hx hy hhome
  obtain ⟨x', hx', hxx⟩ := registration_back hs hsize hx
  obtain ⟨y', hy', hyy⟩ := registration_back hs hsize hy
  have hid : x.id = x'.id := (congrArg Registration.id hxx :)
  have hid' : y.id = y'.id := (congrArg Registration.id hyy :)
  have hh : x.home = x'.home := (congrArg Registration.home hxx :)
  have hh' : y.home = y'.home := (congrArg Registration.home hyy :)
  rw [hid, hid']
  exact hrising h t x' y' hlt hx' hy' (by rw [← hh, ← hh', hhome])

/-! ## Every step -/

/-- The index is about registrations only. -/
theorem Indexes.congr (hi : w.Indexes r g) (hset : w'.registrations = w.registrations) : w'.Indexes r g := by
  have hisOf : ∀ b t, w'.isOf b t = w.isOf b t := by
    intro b t
    rw [isOf, registration?, hset]
    rfl
  have hhasName : ∀ name t, w'.hasName name t = w.hasName name t := by
    intro name t
    rw [hasName, registration?, hset]
    rfl
  have hpubs : w'.publications r = w.publications r := by
    refine publications_congr (congrArg _ hset) fun t => ?_
    rw [isPublic, registration?, hset]
    rfl
  refine ⟨hi.tidy, fun b => ?_, ?_, fun h x hx hhome => hi.ids h x ?_ hhome⟩
  · rw [hi.owned, hpubs]
    exact List.filter_congr fun t _ => (hisOf b t).symm
  · rw [hi.hooks, hpubs]
    exact List.filter_congr fun t _ => (hhasName _ t).symm
  · rw [registration?, ← hset]
    exact hx

/-- A registry whose publications stay keeps its index. -/
theorem Indexes.same (hi : v.Indexes r g) (hs : Step v top out) (hpubs : out.1.publications r = v.publications r)
    (hold : ∀ h y, out.1.registration? h = some y → y.home = r → (v.registration? h).isSome) (hk : g.Keeps k) :
    out.1.Indexes r k := by
  unfold Registry.Keeps at hk
  refine ⟨?_, fun b => ?_, ?_, fun h y hy hhome => ?_⟩
  · rw [hk]
    exact hi.tidy
  · have howned : k.owned b = g.owned b := by rw [hk]; rfl
    rw [howned, hi.owned, hpubs]
    exact List.filter_congr fun t ht => (isOf_step hs (isSome_of_mem_publications ht) b).symm
  · have hhooks : k.hooks = g.hooks := by rw [hk]
    have hconfig : k.config = g.config := by rw [hk]
    rw [hhooks, hconfig, hi.hooks, hpubs]
    exact List.filter_congr fun t ht => (hasName_step hs (isSome_of_mem_publications ht) _).symm
  · obtain ⟨x, hx⟩ := Option.isSome_iff_exists.mp (hold h y hy hhome)
    obtain ⟨y', hy', hyx⟩ := origin_step hs hx
    obtain rfl := Option.some.inj (hy.symm.trans hy')
    have hid : y.id = x.id := (congrArg Registration.id hyx :)
    have hh : y.home = x.home := (congrArg Registration.home hyx :)
    rw [hk, hid]
    exact hi.ids h x hx (hh.symm.trans hhome)

theorem Indexes.home (hi : w.Indexes r g) {x : Registration α} (hx : w.registration? h = some x)
    (hindexed : g.isIndexed b h = true) : x.home = r ∧ x.bundle = b ∧ x.phase = .active := by
  rw [Registry.isIndexed_iff, hi.owned, List.mem_filter, mem_publications] at hindexed
  obtain ⟨y, hy, hhome, hphase⟩ := isPublic_iff.mp hindexed.1
  obtain ⟨z, hz, hbundle⟩ := isOf_iff.mp hindexed.2
  obtain rfl := Option.some.inj (hx.symm.trans hy)
  obtain rfl := Option.some.inj (hx.symm.trans hz)
  exact ⟨hhome, hbundle, hphase⟩

/-- A registry publishes. -/
theorem Indexes.enlist (hi : v.Indexes r g) {x : Registration α} (hhome : x.home = r) (hactive : x.phase = .active)
    (hid : x.id = g.nextService) :
    (v.enlisted r g x).Indexes r (g.enlist x.bundle x.name v.registrations.size) := by
  have hpubs : (v.enlisted r g x).publications r = v.publications r ++ [v.registrations.size] := by
    rw [publications_enlisted, if_pos ⟨hhome, hactive⟩]
  have hlt : ∀ t ∈ v.publications r, t ≠ v.registrations.size :=
    fun t ht => Nat.ne_of_lt (lt_size_iff.mpr (isSome_of_mem_publications ht))
  refine ⟨?_, fun c => ?_, ?_, fun h y hy hh => ?_⟩
  · exact hi.tidy.editAt Keying.bundle_lawful x.bundle (f := (· ++ [v.registrations.size])) (by simp)
  · have hold : (v.publications r).filter ((v.enlisted r g x).isOf c) = g.owned c := by
      rw [hi.owned]
      refine List.filter_congr fun t ht => ?_
      rw [isOf, registration?_enlisted, if_neg (hlt t ht), isOf]
    have hnew : (v.enlisted r g x).isOf c v.registrations.size = (x.bundle == c) := by
      rw [isOf, registration?_enlisted, if_pos rfl, Option.any_some]
    rw [Registry.owned_enlist hi.tidy, hpubs, List.filter_append, hold, List.filter_singleton, hnew]
    by_cases hc : c = x.bundle
    · rw [hc, if_pos rfl, beq_self_eq_true]
      rfl
    · rw [if_neg hc, beq_eq_false_iff_ne.mpr (Ne.symm hc)]
      exact (List.append_nil _).symm
  · have hold : (v.publications r).filter ((v.enlisted r g x).hasName g.config.hookName) = g.hooks := by
      rw [hi.hooks]
      refine List.filter_congr fun t ht => ?_
      rw [hasName, registration?_enlisted, if_neg (hlt t ht), hasName]
    have hnew : (v.enlisted r g x).hasName g.config.hookName v.registrations.size = (x.name == g.config.hookName) := by
      rw [hasName, registration?_enlisted, if_pos rfl, Option.any_some]
    show (if x.name == g.config.hookName then g.hooks ++ [v.registrations.size] else g.hooks) =
      ((v.enlisted r g x).publications r).filter ((v.enlisted r g x).hasName g.config.hookName)
    rw [hpubs, List.filter_append, hold, List.filter_singleton, hnew]
    cases x.name == g.config.hookName with
    | true => rfl
    | false => exact (List.append_nil _).symm
  · show y.id < g.nextService + 1
    rw [registration?_enlisted] at hy
    split at hy
    · obtain rfl := Option.some.inj hy
      exact Nat.lt_succ_of_le (Nat.le_of_eq hid)
    · exact Nat.lt_succ_of_lt (hi.ids h y hy hh)

/-- A registration leaves the index as it stops being active. -/
theorem Indexes.unlist (hi : v.Indexes r g) {x : Registration α} (hx : v.registration? h = some x) :
    (v.setPhase h .unregistering).Indexes r (g.unlist x.bundle h) := by
  have hisOf : ∀ c t, (v.setPhase h .unregistering).isOf c t = v.isOf c t := by
    intro c t
    rw [isOf, registration?_setPhase, isOf]
    split
    · exact Option.any_map ..
    · rfl
  have hhasName : ∀ name t, (v.setPhase h .unregistering).hasName name t = v.hasName name t := by
    intro name t
    rw [hasName, registration?_setPhase, hasName]
    split
    · exact Option.any_map ..
    · rfl
  refine ⟨?_, fun c => ?_, ?_, fun t y hy hh => ?_⟩
  · exact hi.tidy.trimAt Keying.bundle_lawful x.bundle _
  · rw [Registry.owned_unlist hi.tidy, publications_retired, List.filter_filter, hi.owned, hi.owned]
    simp only [hisOf]
    by_cases hc : c = x.bundle
    · rw [if_pos hc, hc, List.filter_filter]
      exact List.filter_congr fun t _ => Bool.and_comm ..
    · rw [if_neg hc]
      refine List.filter_congr fun t _ => ?_
      by_cases ht : t = h
      · have hne : v.isOf c t = false := by
          rw [isOf, ht, hx, Option.any_some]
          exact beq_eq_false_iff_ne.mpr (Ne.symm hc)
        rw [hne, Bool.false_and]
      · rw [bne_iff_ne.mpr ht, Bool.and_true]
  · show g.hooks.filter (· != h) = _
    rw [hi.hooks, publications_retired, List.filter_filter, List.filter_filter]
    simp only [hhasName]
    exact List.filter_congr fun t _ => Bool.and_comm ..
  · rw [registration?_setPhase] at hy
    split at hy
    · obtain ⟨z, hz, rfl⟩ := Option.map_eq_some_iff.mp hy
      exact hi.ids t z hz hh
    · exact hi.ids t y hy hh

/-! ### What a move does to an index -/

theorem publishedAt_append (os os' : List (Occurrence α)) (r : Nat) :
    publishedAt (os ++ os') r = publishedAt os r + publishedAt os' r :=
  List.countP_append

theorem retiredAt_append (os os' : List (Occurrence α)) (r : Nat) :
    retiredAt (os ++ os') r = retiredAt os r + retiredAt os' r :=
  List.countP_append

theorem retiredAt_gist (os : List (Occurrence α)) (r : Nat) : retiredAt (gist os) r = retiredAt os r := by
  rw [retiredAt, gist, List.countP_filter]
  refine List.countP_congr fun o _ => ?_
  cases o <;> simp [Occurrence.isRetiredAt, Occurrence.matters]

theorem retiredAt_asks (f : Frame α) (r : Nat) : retiredAt f.asks r = 0 := by
  refine List.countP_eq_zero.mpr fun o ho => ?_
  obtain ⟨q, -, rfl⟩ := List.mem_map.mp ho
  simp [Occurrence.isRetiredAt]

/-- What is said on the way, but for `o`, is no withdrawal. -/
theorem retiredAt_of_gist {o : Occurrence α} {f : Option (Frame α)}
    (hos : gist os = o :: gist (f.toList.flatMap Frame.asks))
    (r : Nat) : retiredAt os r = if o.isRetiredAt r then 1 else 0 := by
  have hasks : retiredAt (gist (f.toList.flatMap Frame.asks)) r = 0 := by
    cases f with
    | none => rfl
    | some f =>
      rw [Option.toList_some, List.flatMap_singleton, retiredAt_gist]
      exact retiredAt_asks f r
  rw [← retiredAt_gist, hos, retiredAt, List.countP_cons]
  rw [retiredAt] at hasks
  rw [hasks, Nat.zero_add]

theorem publishedAt_filter (os : List (Occurrence α)) (r : Nat) :
    publishedAt (os.filter Occurrence.isPublished) r = publishedAt os r := by
  rw [publishedAt, List.countP_filter]
  refine List.countP_congr fun o _ => ?_
  cases o <;> simp [Occurrence.isPublishedAt, Occurrence.isPublished]

/-- Where the registrations are as many as before, nothing was published. -/
theorem Grows.publishedAt_same (hgrows : Grows v out) (hsize : out.1.registrations.size = v.registrations.size)
    (r : Nat) :
    publishedAt out.2 r = 0 := by
  cases hgrows with
  | same _ hnone =>
    refine List.countP_eq_zero.mpr fun o ho => ?_
    cases o with
    | published q t => exact absurd ho (hnone q t)
    | _ => simp [Occurrence.isPublishedAt]
  | published _ hset =>
    rw [hset, Array.size_push] at hsize
    omega

theorem Grows.publishedAt_push (hgrows : Grows v out) {x : Registration α}
    (hset : out.1.registrations = v.registrations.push x) (r : Nat) :
    publishedAt out.2 r = if x.home = r then 1 else 0 := by
  cases hgrows with
  | same hsize =>
    rw [hset, Array.size_push] at hsize
    omega
  | @published q k b name source p hk hset' hsaid =>
    obtain ⟨rfl, -⟩ := Array.push_eq_push.mp (hset.symm.trans hset')
    rw [← publishedAt_filter, hsaid, publishedAt, List.countP_singleton]
    by_cases hq : q = r <;> simp [Occurrence.isPublishedAt, newcomer, hq]

/-- What a move does to registry `q`, which was `g` and is `k`. -/
inductive Relists (v : World α) (out : Outcome α) (q : Nat) (g k : Registry α) : Prop
  | keeps (hkeeps : g.Keeps k) (hpubs : out.1.publications q = v.publications q)
      (hold : ∀ h y, out.1.registration? h = some y → y.home = q → (v.registration? h).isSome)
      (hpublished : publishedAt out.2 q = 0) (hretired : retiredAt out.2 q = 0)
  | publishes {x : Registration α} (hhome : x.home = q) (hactive : x.phase = .active) (hid : x.id = g.nextService)
      (hk : k = g.enlist x.bundle x.name v.registrations.size) (hset : out.1.registrations = v.registrations.push x)
      (hpublished : publishedAt out.2 q = 1) (hretired : retiredAt out.2 q = 0)
  | withdraws {h : Handle} {x : Registration α} (hx : v.registration? h = some x) (hindexed : g.isIndexed x.bundle h = true)
      (hk : k = g.unlist x.bundle h) (hset : out.1.registrations = (v.setPhase h .unregistering).registrations)
      (hpublished : publishedAt out.2 q = 0) (hretired : retiredAt out.2 q = 1)

/-- Nothing is published, and no withdrawal starts. -/
theorem relists_same (ht : Takes v top out) (hsize : out.1.registrations.size = v.registrations.size)
    (hpublic : ∀ t, out.1.isPublic q t = v.isPublic q t) (hretired : retiredAt out.2 q = 0) (hk : g.Keeps k) :
    Relists v out q g k := by
  refine .keeps hk (publications_congr hsize hpublic) (fun h y hy _ => ?_) (ht.grows.publishedAt_same hsize q) hretired
  obtain ⟨x, hx, -⟩ := registration_back ht.step hsize hy
  rw [hx]
  rfl

/-- It is one registry whose ledger is new. -/
theorem relists_ledger (ht : Takes v top out) {l : Ledger α} (hg : v.registries[r]? = some g)
    (hset : out.1.registries = (v.setRegistry r { g with ledger := l }).registries)
    (hsize : out.1.registrations.size = v.registrations.size) (hpublic : ∀ t, out.1.isPublic q t = v.isPublic q t)
    (hretired : retiredAt out.2 q = 0) (hk : out.1.registries[q]? = some k) :
    ∃ g, v.registries[q]? = some g ∧ Relists v out q g k := by
  rw [hset] at hk
  rcases registry_setRegistry hk with ⟨rfl, rfl⟩ | ⟨-, hk⟩
  · exact ⟨g, hg, relists_same ht hsize hpublic hretired rfl⟩
  · exact ⟨k, hk, relists_same ht hsize hpublic hretired (.refl k)⟩

theorem relists_step (hc : Catalogued (v.onto top)) (ht : Takes v top out) (hk : out.1.registries[q]? = some k) :
    ∃ g, v.registries[q]? = some g ∧ Relists v out q g k := by
  have hkept : ∀ {os : List (Occurrence α)}, gist os = [] → retiredAt os q = 0 := by
    intro os hos
    rw [← retiredAt_gist, hos]
    rfl
  obtain ⟨hs, hturn, hgrows⟩ := ht
  have ht : Takes v top out := ⟨hs, hturn, hgrows⟩
  cases hs with
  | idle htop hi =>
    obtain ⟨g, hg, hm⟩ := hi.alike.registry_before hk
    refine ⟨g, hg, relists_same ht (size_of_alike hi.alike) (hi.alike.isPublic q) (hkept hi.quiet) ?_⟩
    rw [Registry.Keeps, hm.eq]
  | @publish r g b name source p held f os hg hf hos =>
    have hset : (v.enlisted r g (newcomer r g b name source p)).registrations =
      v.registrations.push (newcomer r g b name source p) := rfl
    have hpublished : publishedAt os q = if r = q then 1 else 0 := hgrows.publishedAt_push hset q
    rcases registry_setRegistry hk with ⟨rfl, rfl⟩ | ⟨hne, hk⟩
    · rw [if_pos rfl] at hpublished
      exact ⟨g, hg, .publishes (x := newcomer q g b name source p) rfl rfl rfl rfl rfl hpublished (hkept hos)⟩
    · rw [if_neg (Ne.symm hne)] at hpublished
      refine ⟨k, hk, .keeps (.refl k) ?_ (fun h y hy hhome => ?_) hpublished (hkept hos)⟩
      · refine (publications_enlisted v r g (newcomer r g b name source p) q).trans ?_
        rw [if_neg (fun h => hne h.1.symm), List.append_nil]
      · have hy' : (v.enlisted r g (newcomer r g b name source p)).registration? h = some y := hy
        rw [registration?_enlisted] at hy'
        split at hy'
        · obtain rfl := Option.some.inj hy'
          exact absurd hhome.symm hne
        · rw [hy']
          rfl
  | @retire top f r g h x os htop hf hg hx hindexed hactive hos =>
    have hsize : (v.setPhase h .unregistering).registrations.size = v.registrations.size := size_setPhase ..
    have hretired := retiredAt_of_gist (f := none) hos q
    rcases registry_setRegistry hk with ⟨rfl, rfl⟩ | ⟨hne, hk⟩
    · refine ⟨g, hg, .withdraws hx hindexed rfl rfl (hgrows.publishedAt_same hsize q) ?_⟩
      simpa [Occurrence.isRetiredAt] using hretired
    · refine ⟨k, hk, relists_same ht hsize (fun t => ?_) ?_ (.refl k)⟩
      · -- A registry withdraws only what is at home with it.
        have hhome : x.home ≠ q := by
          have hi : v.Indexes r g := (hc.indexes r g hg).congr rfl
          rw [(hi.home hx hindexed).1]
          exact Ne.symm hne
        show (v.setPhase h .unregistering).isPublic q t = _
        rw [isPublic, registration?_setPhase, isPublic]
        by_cases hth : t = h
        · rw [if_pos hth, hth, hx]
          simp [hhome]
        · rw [if_neg hth]
      · simpa [Occurrence.isRetiredAt, Ne.symm hne] using hretired
  | notified hos => exact ⟨k, hk, relists_same ht rfl (fun t => rfl) (hkept hos) (.refl k)⟩
  | @drain r g h os f hg hf hos =>
    -- It left the index when its withdrawal began.
    have hinactive := (hc.outgoing (.draining r h) (List.mem_cons_self ..) h (beq_self_eq_true h)).2
    have hsize : (v.setPhase h .invalid).registrations.size = v.registrations.size := size_setPhase ..
    have hretired := retiredAt_of_gist (f := some f) (by simpa using hos) q
    refine relists_ledger ht hg rfl hsize (fun t => ?_) hretired hk
    exact isPublic_drained hinactive q t
  | acquire f hg hknown hx hf hos =>
    exact relists_ledger ht hg rfl rfl (fun t => rfl) (retiredAt_of_gist (f := some f) (by simpa using hos) q) hk
  | supplied o hos =>
    exact ⟨k, hk, relists_same ht rfl (fun t => rfl) (retiredAt_of_gist (f := none) hos q) (.refl k)⟩
  | settle e f hg he hf hos =>
    exact relists_ledger ht hg rfl rfl (fun t => rfl) (retiredAt_of_gist (f := some f) (by simpa using hos) q) hk
  | decrement htop hf hg hknown hrel hos =>
    exact relists_ledger ht hg rfl rfl (fun t => rfl) (retiredAt_of_gist (f := none) hos q) hk
  | flush back htop hf hg hknown hrel hback hos =>
    exact relists_ledger ht hg rfl rfl (fun t => rfl) (retiredAt_of_gist hos q) hk
  | handed hos =>
    refine ⟨k, hk, relists_same ht rfl (fun t => rfl) ?_ (.refl k)⟩
    rw [← retiredAt_gist, hos, retiredAt_gist]
    exact retiredAt_asks _ q

theorem Relists.indexes (hrel : Relists v out r g k) (hi : v.Indexes r g) (hs : Step v top out) : out.1.Indexes r k := by
  cases hrel with
  | keeps hkeeps hpubs hold => exact hi.same hs hpubs hold hkeeps
  | publishes hhome hactive hid hk hset =>
    rw [hk]
    exact (hi.enlist hhome hactive hid).congr hset
  | withdraws hx hindexed hk hset =>
    rw [hk]
    exact (hi.unlist hx).congr hset

theorem Relists.setup (hrel : Relists v out r g k) : k.config = g.config ∧ k.hasSink = g.hasSink := by
  cases hrel with
  | keeps hkeeps =>
    unfold Registry.Keeps at hkeeps
    rw [hkeeps]
    exact ⟨rfl, rfl⟩
  | publishes _ _ _ hk =>
    rw [hk]
    exact ⟨rfl, rfl⟩
  | withdraws _ _ hk =>
    rw [hk]
    exact ⟨rfl, rfl⟩

/-- A publication more for each that is published, and one less for each withdrawal that starts. -/
theorem Relists.counts (hrel : Relists v out r g k) (hi : v.Indexes r g) :
    (out.1.publications r).length + retiredAt out.2 r = (v.publications r).length + publishedAt out.2 r := by
  cases hrel with
  | keeps _ hpubs _ hpublished hretired => rw [hpubs, hpublished, hretired]
  | @publishes x hhome hactive _ _ hset hpublished hretired =>
    have hpubs : out.1.publications r = v.publications r ++ [v.registrations.size] := by
      rw [publications_congr (w := v.enlisted r g x) (congrArg _ hset) fun t => by rw [isPublic, registration?, hset]; rfl,
        publications_enlisted, if_pos ⟨hhome, hactive⟩]
    rw [hpubs, List.length_append, List.length_singleton, hpublished, hretired]
  | @withdraws h x hx hindexed hk hset hpublished hretired =>
    have hpubs : out.1.publications r = (v.publications r).filter (· != h) := by
      rw [publications_congr (w := v.setPhase h .unregistering) (congrArg _ hset)
        fun t => by rw [isPublic, registration?, hset]; rfl, publications_retired]
    have hmem : h ∈ v.publications r := by
      obtain ⟨hhome, -, hactive⟩ := hi.home hx hindexed
      exact mem_publications.mpr (isPublic_iff.mpr ⟨x, hx, hhome, hactive⟩)
    have hnodup : (v.publications r).Nodup := (publications_rising v r).imp fun hlt => Nat.ne_of_lt hlt
    have hpos := List.length_pos_of_mem hmem
    rw [hpubs, ← hnodup.erase_eq_filter, List.length_erase_of_mem hmem, hpublished, hretired]
    omega

/-- Ids rise with what is published, for each registry. -/
theorem rising_takes (hc : Catalogued (v.onto top)) (ht : Takes v top out) : out.1.Rising := by
  cases ht.grows with
  | same hsize => exact rising_step ht.step hsize hc.rising
  | @published r g b name source p hg hset =>
    intro h t x y hlt hx hy hhome
    have hregistration : ∀ k, out.1.registration? k =
        if k = v.registrations.size then some (newcomer r g b name source p) else v.registration? k := by
      intro k
      rw [← registration?_enlisted v r g (newcomer r g b name source p) k, registration?, hset]
      rfl
    have hht : t ≤ v.registrations.size := by
      have hsome : t < out.1.registrations.size := by
        rw [lt_size_iff, hy]
        rfl
      rw [hset, Array.size_push] at hsome
      exact Nat.le_of_lt_succ hsome
    have hold : v.registration? h = some x := by
      rw [← hx, hregistration, if_neg (Nat.ne_of_lt (Nat.lt_of_lt_of_le hlt hht))]
    rw [hregistration] at hy
    split at hy
    · obtain rfl := Option.some.inj hy
      exact (hc.indexes r g hg).ids h x hold hhome
    · exact hc.rising h t x y hlt hold hy hhome

theorem outgoing_of_not {f : Frame α} (hf : ∀ h, f.leaves h = false) : w.Outgoing f := by
  intro h hleaves
  rw [hf] at hleaves
  cases hleaves

theorem outgoing_of_aside {f : Option (Frame α)} (hf : ∀ k ∈ f, k.isAside) : ∀ k ∈ f.toList, w.Outgoing k :=
  fun k hk => outgoing_of_not (Frame.leaves_of_aside (hf k (Option.mem_toList.mp hk)))

theorem outgoing_step (hc : Catalogued (v.onto top)) (hs : Step v top out) : ∀ k ∈ out.1.stack, out.1.Outgoing k := by
  have hkept : ∀ k ∈ (v.onto top).stack, out.1.Outgoing k := by
    intro k hk h hleaves
    obtain ⟨hx, hinactive⟩ := hc.outgoing k hk h hleaves
    exact ⟨registered_step hs hx, inactive_step hs hx hinactive⟩
  -- It is enough to look at what is new on the stack.
  have hnew : ∀ p : List (Frame α), out.1.stack = p ++ v.stack → (∀ k ∈ p, out.1.Outgoing k) →
      ∀ k ∈ out.1.stack, out.1.Outgoing k := by
    intro p hstack hp k hk
    rw [hstack] at hk
    rcases List.mem_append.mp hk with hk | hk
    · exact hp k hk
    · exact hkept k (List.mem_append_right _ hk)
  have hone : ∀ f : Frame α, out.1.stack = f :: v.stack → (∀ h, f.leaves h = false) →
      ∀ k ∈ out.1.stack, out.1.Outgoing k := by
    intro f hstack hf
    refine hnew [f] hstack fun k hk => ?_
    rw [List.mem_singleton.mp hk]
    exact outgoing_of_not hf
  cases hs with
  | idle htop hi =>
    obtain ⟨f, hf, hasides⟩ := hi.stack
    exact hnew f.toList hf (outgoing_of_aside fun k hk => (hasides k hk).1)
  | @publish r g b name source p held f os hg hf =>
    refine hnew f.toList rfl (outgoing_of_aside fun k hk => ?_)
    rw [hf k hk]
    rfl
  | @retire top f r g h x os htop hf hg hx =>
    refine hnew (_ :: f.toList) rfl fun k hk => ?_
    rcases List.mem_cons.mp hk with rfl | hk
    · intro t hleaves
      obtain rfl : h = t := by split at hleaves <;> exact beq_iff_eq.mp hleaves
      constructor
      · show ((v.setPhase h .unregistering).registration? h).isSome
        rw [registration?_setPhase, if_pos rfl, hx]
        rfl
      · show (v.setPhase h .unregistering).isActive h = false
        rw [isActive, phase?_setPhase, if_pos rfl, phase?_of_some hx]
        rfl
    · exact outgoing_of_aside (fun k hk => Frame.aside_of_loop (hf k hk).1) k hk
  | @notified r h os =>
    refine hnew [.draining r h] rfl fun k hk t hleaves => ?_
    rw [List.mem_singleton.mp hk] at hleaves
    exact hkept (.withdrawing r h) (List.mem_cons_self ..) t hleaves
  | drain f hg hf => exact hone f rfl fun t => by rw [hf]; rfl
  | acquire f hg hknown hx hf => exact hone f rfl fun t => by rw [hf, leaves_fetch]
  | supplied => exact hone _ rfl fun t => rfl
  | settle e f hg he hf => exact hone f rfl fun t => by rw [hf]; rfl
  | @decrement top f r g b ref left ledger os htop hf =>
    exact hnew f.toList rfl (outgoing_of_aside fun k hk => Frame.aside_of_loop (hf k hk).1)
  | @flush top f r g b ref cached ledger os back htop hf hg hknown hrel hback =>
    refine hnew (back.toList ++ f.toList) (List.append_assoc ..).symm fun k hk => ?_
    rcases List.mem_append.mp hk with hk | hk
    · rw [Option.mem_toList, hback] at hk
      obtain ⟨o, -, rfl⟩ := Option.map_eq_some_iff.mp hk
      exact outgoing_of_not fun t => rfl
    · exact outgoing_of_aside (fun k hk => Frame.aside_of_loop (hf k hk).1) k hk
  | handed => exact hone _ rfl fun t => rfl

theorem catalogued_step (hc : Catalogued (v.onto top)) (ht : Takes v top out) : Catalogued out.1 where
  indexes q k hk := by
    obtain ⟨g, hg, hrel⟩ := relists_step hc ht hk
    exact hrel.indexes ((hc.indexes q g hg).congr rfl) ht.step
  rising := rising_takes hc ht
  outgoing := outgoing_step hc ht.step

theorem catalogued_start (setups : List (Config × Bool)) : Catalogued (start setups : World α) where
  indexes r g hg := by
    obtain ⟨c, hasSink, -, rfl⟩ := registry_start hg
    refine ⟨Shelf.tidy_withCapacity .., fun b => ?_, rfl, fun h x hx => ?_⟩
    · exact Shelf.listAt_withCapacity ..
    · cases hx
  rising h t x y _ hx := by cases hx
  outgoing k hk := by cases hk

theorem size_registries_step (hs : Step v top out) : out.1.registries.size = v.registries.size := by
  cases hs with
  | idle htop hi => exact hi.alike.size
  | notified => rfl
  | supplied => rfl
  | handed => rfl
  | _ => exact Array.size_setIfInBounds

/-- The registries are those that were set up, and each index has a publication for each time
    its registry published something, less one for each withdrawal that started. -/
structure Tallied (setups : List (Config × Bool)) (w : World α) (os : List (Occurrence α)) : Prop where
  catalogued : Catalogued w
  size : w.registries.size = setups.length
  setup : ∀ (r : Nat) (g : Registry α), w.registries[r]? = some g → setups[r]? = some (g.config, g.hasSink)
  count : ∀ (r : Nat) (g : Registry α), w.registries[r]? = some g →
    (w.publications r).length + retiredAt os r = publishedAt os r

theorem tallied_start (setups : List (Config × Bool)) : Tallied setups (start setups : World α) [] where
  catalogued := catalogued_start setups
  size := by simp [start]
  setup r g hg := by
    obtain ⟨c, hasSink, hr, rfl⟩ := registry_start hg
    exact hr
  count r g _ := rfl

theorem tallied_play {setups : List (Config × Bool)} {m : Move α} (ht : Tallied setups w os)
    (hplay : w.play m = some out) :
    Tallied setups out.1 (os ++ out.2) := by
  obtain ⟨v, top, rfl, -, htakes⟩ := takes_of_play hplay
  have hrel := fun {q k} => relists_step (q := q) (k := k) ht.catalogued htakes
  refine ⟨catalogued_step ht.catalogued htakes, (size_registries_step htakes.step).trans ht.size, fun q k hk => ?_, fun q k hk => ?_⟩
  · obtain ⟨g, hg, hrel⟩ := hrel hk
    rw [hrel.setup.1, hrel.setup.2]
    exact ht.setup q g hg
  · obtain ⟨g, hg, hrel⟩ := hrel hk
    have hbefore : (v.publications q).length + retiredAt os q = publishedAt os q := ht.count q g hg
    have hmove := hrel.counts ((ht.catalogued.indexes q g hg).congr rfl)
    rw [retiredAt_append, publishedAt_append]
    omega

theorem tallied_run {setups : List (Config × Bool)} {ms : List (Move α)} (hrun : (start setups).run ms = some out) :
    Tallied setups out.1 out.2 :=
  run_induction (P := Tallied setups) (fun _ _ _ _ => tallied_play) ms _ [] out (tallied_start setups) hrun

/-! ## What follows -/

structure IndexFits (w : World α) (r : Nat) (g : Registry α) : Prop where
  listed : ∀ h x, w.registration? h = some x → x.home = r → (h ∈ g.index.members ↔ x.phase = .active)
  once : g.index.members.Nodup
  own : ∀ b, ∀ h ∈ g.owned b, ∃ x, w.registration? h = some x ∧ x.home = r ∧ x.bundle = b ∧ x.phase = .active
  /-- A slot has what its bundle publishes, which is something, in the order of service ids. -/
  slots : ∀ e ∈ g.index.entries, e.value = g.owned e.key ∧ e.value ≠ [] ∧ (e.value.map w.serviceId).Pairwise (· < ·)
  hooks : ∀ h, h ∈ g.hooks ↔ ∃ x, w.registration? h = some x ∧ x.home = r ∧ x.phase = .active ∧ x.name = g.config.hookName
  hooksRise : (g.hooks.map w.serviceId).Pairwise (· < ·)

theorem mem_owned (hi : w.Indexes r g) : h ∈ g.owned b ↔
    ∃ x, w.registration? h = some x ∧ x.home = r ∧ x.bundle = b ∧ x.phase = .active := by
  rw [hi.owned, List.mem_filter, mem_publications, isPublic_iff, isOf_iff]
  constructor
  · rintro ⟨⟨x, hx, hhome, hphase⟩, y, hy, hbundle⟩
    obtain rfl := Option.some.inj (hx.symm.trans hy)
    exact ⟨x, hx, hhome, hbundle, hphase⟩
  · rintro ⟨x, hx, hhome, hbundle, hphase⟩
    exact ⟨⟨x, hx, hhome, hphase⟩, x, hx, hbundle⟩

theorem mem_hooks (hi : w.Indexes r g) : h ∈ g.hooks ↔
    ∃ x, w.registration? h = some x ∧ x.home = r ∧ x.phase = .active ∧ x.name = g.config.hookName := by
  rw [hi.hooks, List.mem_filter, mem_publications, isPublic_iff, hasName_iff]
  constructor
  · rintro ⟨⟨x, hx, hhome, hphase⟩, y, hy, hname⟩
    obtain rfl := Option.some.inj (hx.symm.trans hy)
    exact ⟨x, hx, hhome, hphase, hname⟩
  · rintro ⟨x, hx, hhome, hphase, hname⟩
    exact ⟨⟨x, hx, hhome, hphase⟩, x, hx, hname⟩

theorem mem_members (hi : w.Indexes r g) : h ∈ g.index.members ↔ h ∈ w.publications r := by
  rw [Shelf.mem_members Keying.bundle_lawful hi.tidy.isMap, mem_publications, isPublic_iff]
  constructor
  · rintro ⟨b, hb⟩
    obtain ⟨x, hx, hhome, -, hphase⟩ := (mem_owned hi).mp hb
    exact ⟨x, hx, hhome, hphase⟩
  · rintro ⟨x, hx, hhome, hphase⟩
    exact ⟨x.bundle, (mem_owned hi).mpr ⟨x, hx, hhome, rfl, hphase⟩⟩

theorem nodup_publications (w : World α) (r : Nat) : (w.publications r).Nodup :=
  (publications_rising w r).imp fun hlt => Nat.ne_of_lt hlt

theorem nodup_members (hi : w.Indexes r g) : g.index.members.Nodup := by
  refine Shelf.nodup_members Keying.bundle_lawful hi.tidy.isMap (fun b => ?_) fun b c h hb hc => ?_
  · rw [show g.index.listAt b = _ from hi.owned b]
    exact (nodup_publications w r).filter _
  · obtain ⟨x, hx, -, hbundle, -⟩ := (mem_owned hi).mp hb
    obtain ⟨y, hy, -, hbundle', -⟩ := (mem_owned hi).mp hc
    obtain rfl := Option.some.inj (hx.symm.trans hy)
    rw [Keying.same_bundle, ← hbundle, ← hbundle']

/-- The order of publication is the order of service ids. -/
theorem serviceIds_rise (hc : w.Catalogued) (r : Nat) (p : Handle → Bool) :
    (((w.publications r).filter p).map w.serviceId).Pairwise (· < ·) := by
  refine List.pairwise_map.mpr (((publications_rising w r).filter p).imp_of_mem fun {h t} hh ht hlt => ?_)
  obtain ⟨x, hx, hhome, -⟩ := isPublic_iff.mp (mem_publications.mp (List.mem_filter.mp hh).1)
  obtain ⟨y, hy, hhome', -⟩ := isPublic_iff.mp (mem_publications.mp (List.mem_filter.mp ht).1)
  have hid := hc.rising h t x y hlt hx hy (hhome.trans hhome'.symm)
  rw [serviceId, serviceId, hx, hy]
  exact hid

theorem indexFits_of (hc : w.Catalogued) (hi : w.Indexes r g) : w.IndexFits r g where
  listed h x hx hhome := by
    rw [mem_members hi, mem_publications, isPublic_iff]
    constructor
    · rintro ⟨y, hy, -, hphase⟩
      obtain rfl := Option.some.inj (hx.symm.trans hy)
      exact hphase
    · exact fun hphase => ⟨x, hx, hhome, hphase⟩
  once := nodup_members hi
  own b h hb := (mem_owned hi).mp hb
  slots e he := by
    have hvalue := Shelf.listAt_of_mem_entries Keying.bundle_lawful hi.tidy.isMap he
    refine ⟨hvalue.symm, hi.tidy.ne_nil_of_mem Keying.bundle_lawful he, ?_⟩
    rw [← hvalue, show g.index.listAt e.key = _ from hi.owned e.key]
    exact serviceIds_rise hc r _
  hooks _ := mem_hooks hi
  hooksRise := by
    rw [hi.hooks]
    exact serviceIds_rise hc r _

/-- The registry counts its publications. -/
theorem registrationCount_eq (hi : w.Indexes r g) : w.registrationCount g = (w.publications r).length := by
  have hperm : g.index.members.Perm (w.publications r) :=
    (List.perm_ext_iff_of_nodup (nodup_members hi) (nodup_publications w r)).mpr fun _ => mem_members hi
  have hactive : g.index.members.filter w.isActive = g.index.members := by
    refine List.filter_eq_self.mpr fun h hh => ?_
    obtain ⟨x, hx, -, hphase⟩ := isPublic_iff.mp (mem_publications.mp ((mem_members hi).mp hh))
    rw [isActive_iff, phase?_of_some hx, hphase]
  rw [registrationCount, active, hactive, hperm.length_eq]

/-- There is a reference for each, in their order. -/
theorem targets_mintAll (hg : w.registries[r]? = some g) (hs : List Handle) :
    (w.mintAll r hs).1.map (·.target) = hs := by
  induction hs generalizing w g with
  | nil => rfl
  | cons h hs ih =>
    obtain ⟨k, hk, -⟩ := (alike_mint w r h).registry r g hg
    have hhead : (w.mint r h).1.toList.map (·.target) = [h] := by
      rw [mint, hg]
      rfl
    show ((w.mint r h).1.toList ++ ((w.mint r h).2.1.mintAll r hs).1).map (·.target) = h :: hs
    rw [List.map_append, hhead, ih hk]
    rfl

def Lists (w : World α) (r : Nat) (op : Operation α) (hs : List Handle) : Prop :=
  ∃ out refs, w.play (.call r op) = some out ∧ out.1.stack = w.stack ∧
    out.2.getLast? = some (.returned (.references refs)) ∧ refs.map (·.target) = hs

def ListsPublications (w : World α) (r : Nat) : Prop :=
  w.isClientsTurn = true → ∀ b, w.Lists r (.registered b) ((w.publications r).filter (w.isOf b))

/-- What another registry published is neither withdrawn nor changed, nor is anything else. -/
def SparesForeign (w : World α) (r : Nat) : Prop :=
  ∀ h x, w.registration? h = some x → x.home ≠ r → w.isClientsTurn = true → w.isAlive h = true →
    w.play (.call r (.unregister x.bundle h)) =
      some (w, [.called r (.unregister x.bundle h), .declined r h, .returned (.flag false)]) ∧
    ∀ p, w.play (.call r (.setProperties h p)) =
      some (w, [.called r (.setProperties h p), .returned (.flag false)])

theorem returnAll_eq (hturn : w.isClientsTurn = true) (r : Nat) (hs : List Handle) : w.returnAll r hs =
    ((w.mintAll r hs).2.1, (w.mintAll r hs).2.2 ++ [.returned (.references (w.mintAll r hs).1)]) := by
  show after _ (finish _ _) = _
  rw [finish_eq ((isClientsTurn_eq (mintAll_idle r hs w).2.1).trans hturn) (by simp)]
  rfl

theorem lists_of_returnAll (hg : w.registries[r]? = some g) (hturn : w.isClientsTurn = true) {op : Operation α}
    {hs : List Handle} (hallows : w.allows op = true) (hcall : w.call r g op = w.returnAll r hs) : w.Lists r op hs := by
  have hplay := play_call hturn hallows hg
  rw [hcall, returnAll_eq hturn] at hplay
  refine ⟨_, _, hplay, (mintAll_idle r hs w).2.1, ?_, targets_mintAll hg hs⟩
  show (_ :: (_ ++ [_])).getLast? = _
  rw [← List.cons_append, List.getLast?_append]
  rfl

theorem listsPublications_of (hi : w.Indexes r g) (hg : w.registries[r]? = some g) : w.ListsPublications r := by
  intro hturn b
  have hvalid : (g.owned b).filter w.isValid = (w.publications r).filter (w.isOf b) := by
    rw [← hi.owned]
    refine List.filter_eq_self.mpr fun h hh => ?_
    obtain ⟨x, hx, -, -, hphase⟩ := (mem_owned hi).mp hh
    rw [isValid_iff, phase?_of_some hx, hphase]
    exact Or.inl rfl
  refine lists_of_returnAll hg hturn rfl ?_
  rw [call, hvalid]

theorem sparesForeign_of (hi : w.Indexes r g) (hg : w.registries[r]? = some g) : w.SparesForeign r := by
  intro h x hx hhome hturn halive
  have hindexed : g.isIndexed x.bundle h = false :=
    Bool.eq_false_iff.mpr fun hindexed => hhome (hi.home hx hindexed).1
  have hfinish : w.finish (.flag false) = (w, [.returned (.flag false)]) := finish_eq hturn (by simp)
  constructor
  · have hretire : w.retire? r g h = none := by
      rw [retire?, hx]
      dsimp only
      rw [hindexed]
      rfl
    have hcall : w.call r g (.unregister x.bundle h) = after [.declined r h] (w.finish (.flag false)) := by
      rw [call, unregister, hx]
      dsimp only
      rw [beq_self_eq_true, if_pos rfl, withdraw, hretire]
    rw [play_call hturn (show w.allows (.unregister x.bundle h) = true from halive) hg, hcall, hfinish]
    rfl
  · intro p
    have hcall : w.call r g (.setProperties h p) = w.finish (.flag false) := by
      rw [call, setProperties, hx]
      dsimp only
      rw [hindexed]
      rfl
    rw [play_call hturn (show w.allows (.setProperties h p) = true from halive) hg, hcall, hfinish]
    rfl

/-- In every reachable world of any registries, the index of each lists what is active of what it
    published, and so it counts and answers; what another published it leaves alone. -/
theorem index_sound {setups : List (Config × Bool)} {ms : List (Move α)} (hrun : (start setups).run ms = some out)
    {c : Config} {hasSink : Bool} (hr : setups[r]? = some (c, hasSink)) :
    ∃ g, out.1.registries[r]? = some g ∧ g.config = c ∧ out.1.IndexFits r g ∧
      out.1.registrationCount g + retiredAt out.2 r = publishedAt out.2 r ∧
      out.1.ListsPublications r ∧ out.1.SparesForeign r := by
  have ht := tallied_run hrun
  have hlt : r < out.1.registries.size := by
    rw [ht.size]
    exact (List.getElem?_eq_some_iff.mp hr).1
  obtain ⟨g, hg⟩ : ∃ g, out.1.registries[r]? = some g := ⟨_, Array.getElem?_eq_getElem hlt⟩
  have hi := ht.catalogued.indexes r g hg
  refine ⟨g, hg, ?_, indexFits_of ht.catalogued hi, ?_, listsPublications_of hi hg, sparesForeign_of hi hg⟩
  · have hsetup := hr.symm.trans (ht.setup r g hg)
    exact (congrArg Prod.fst (Option.some.inj hsetup)).symm
  · rw [registrationCount_eq hi]
    exact ht.count r g hg

/-- While the sink is told of the first of two registrations, the second is published and the first
    withdrawn; another registry publishes, too. -/
def withdrawnWhenAnnounced : List (Move Nat) :=
  [.call 0 (.register 7 "a" (.object 1) none), .call 0 (.register 7 "b" (.object 2) none), .answer .done,
   .call 0 (.unregister 7 0), .answer .done, .tick, .tick, .call 1 (.register 7 "a" (.object 3) none)]

theorem index_sound_withdrawnWhenAnnounced : ∃ out g,
    (start [(Config.standard, true), (Config.standard, false)]).run withdrawnWhenAnnounced = some out ∧
    publishedAt out.2 0 = 2 ∧ retiredAt out.2 0 = 1 ∧
    [(Config.standard, true), (Config.standard, false)][0]? = some (Config.standard, true) ∧
    out.1.registries[0]? = some g ∧ g.config = Config.standard ∧ out.1.IndexFits 0 g ∧
    out.1.registrationCount g + retiredAt out.2 0 = publishedAt out.2 0 ∧
    out.1.ListsPublications 0 ∧ out.1.SparesForeign 0 := by
  have hany : ((start [(Config.standard, true), (Config.standard, false)]).run withdrawnWhenAnnounced).any
      (fun out => publishedAt out.2 0 == 2 && retiredAt out.2 0 == 1) = true := by decide +kernel
  obtain ⟨out, hrun, hcounts⟩ := (Option.any_eq_true _ _).mp hany
  obtain ⟨hpublished, hretired⟩ := Bool.and_eq_true_iff.mp hcounts
  obtain ⟨g, hindex⟩ := index_sound (r := 0) (c := Config.standard) hrun rfl
  exact ⟨out, g, hrun, beq_iff_eq.mp hpublished, beq_iff_eq.mp hretired, rfl, hindex⟩

end World

end Switchboard
