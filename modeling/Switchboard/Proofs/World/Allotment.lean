/-
  Switchboard.Proofs.World.Allotment — service ids go by the order of publishing.

  A registry gives each registration the next service id in the section that publishes it, and
  nothing gives an id back. So at every moment of every run, whatever call backs do, the
  registrations published so far have the ids from the first one on, in the order they were
  published, withdrawn or not (`Allotted`).

  Ids are numbers without a bound here, and the registry's counter is a word of 64 bits, which
  wraps around. The words are in the order of the numbers as long as the ids fit (`IdsFit`), and
  they do until the registry has published all that the first id leaves room for (`Allotted.fits`).
-/

import Switchboard.Proofs.World.Index

namespace Switchboard

variable {α : Type}

def Occurrence.publishedIn? (r : Nat) : Occurrence α → Option Handle
  | published q h => if q = r then some h else none
  | _ => none

def publishedIn (os : List (Occurrence α)) (r : Nat) : List Handle := os.filterMap (·.publishedIn? r)

theorem publishedIn_append (os os' : List (Occurrence α)) (r : Nat) :
    publishedIn (os ++ os') r = publishedIn os r ++ publishedIn os' r :=
  List.filterMap_append ..

theorem publishedIn_filter (os : List (Occurrence α)) (r : Nat) :
    publishedIn (os.filter Occurrence.isPublished) r = publishedIn os r := by
  rw [publishedIn, List.filterMap_filter]
  refine List.filterMap_congr fun o _ => ?_
  cases o <;> rfl

theorem publishedIn_eq_nil {os : List (Occurrence α)} {r : Nat} (hnone : ∀ h, .published r h ∉ os) :
    publishedIn os r = [] := by
  refine List.filterMap_eq_nil_iff.mpr fun o ho => ?_
  cases o with
  | published q h =>
    refine if_neg fun hq => ?_
    subst hq
    exact hnone h ho
  | _ => rfl

/-! ## Words -/

/-- The word of the next id comes next, and after the last word zero. -/
theorem Registry.word_enlist (g : Registry α) (b : BundleId) (name : String) (h : Handle) :
    (g.enlist b name h).nextService.word = g.nextService.word + 1 :=
  UInt64.ofNat_add ..

theorem ServiceId.word_lt_word {m n : ServiceId} (hlt : m < n) (hn : n < 2 ^ 64) : m.word < n.word := by
  have hm : m < 2 ^ 64 := hlt.trans hn
  rw [UInt64.lt_iff_toNat_lt, word, word, UInt64.toNat_ofNat_of_lt' hm, UInt64.toNat_ofNat_of_lt' hn]
  exact hlt

namespace World

variable {w v : World α} {g k : Registry α} {top : Option (Frame α)} {out : Outcome α} {os : List (Occurrence α)}
  {r : Nat} {h t : Handle} {c : Config} {ms : List (Move α)} {m : Move α}

/-! ## What is published -/

def Homed (w : World α) (r : Nat) (h : Handle) : Prop := ∃ x, w.registration? h = some x ∧ x.home = r

/-- What was published stays, with its id. -/
theorem Homed.step {top : Option (Frame α)} (hh : (v.onto top).Homed r h) (hs : Step v top out) :
    out.1.Homed r h ∧ out.1.serviceId h = v.serviceId h := by
  obtain ⟨x, hx, hhome⟩ := hh
  obtain ⟨y, hy, hyx⟩ := origin_step hs hx
  have hid : y.id = x.id := (congrArg Registration.id hyx :)
  have hhome' : y.home = x.home := (congrArg Registration.home hyx :)
  refine ⟨⟨y, hy, hhome'.trans hhome⟩, ?_⟩
  rw [serviceId, serviceId, hy, show v.registration? h = some x from hx, Option.map_some, Option.map_some, hid]

theorem Homed.play (hh : w.Homed r h) (hplay : w.play m = some out) :
    out.1.Homed r h ∧ out.1.serviceId h = w.serviceId h := by
  obtain ⟨v, top, rfl, -, hs⟩ := play_step hplay
  exact hh.step hs

/-! ## What a move publishes -/

theorem publishedIn_of_count (hnone : publishedAt os r = 0) : publishedIn os r = [] := by
  refine publishedIn_eq_nil fun h hmem => ?_
  have hcount := List.countP_eq_zero.mp hnone _ hmem
  exact hcount (decide_eq_true rfl)

/-- What comes is told of, at its registry. -/
theorem Grows.publishedIn_push (hgrows : Grows v out) {x : Registration α}
    (hset : out.1.registrations = v.registrations.push x) :
    publishedIn out.2 x.home = [v.registrations.size] := by
  cases hgrows with
  | same hsize =>
    rw [hset, Array.size_push] at hsize
    omega
  | published _ hset' hsaid =>
    obtain ⟨rfl, -⟩ := Array.push_eq_push.mp (hset.symm.trans hset')
    rw [← publishedIn_filter, hsaid]
    exact List.filterMap_cons_some (if_pos rfl)

/-! ## Service ids -/

/-- The `n`-th registration that registry `r` published has the `n`-th id from the first on, and the
    next one is to have the next. -/
structure Allotted (c : Config) (w : World α) (os : List (Occurrence α)) (r : Nat) (g : Registry α) : Prop where
  ids : (publishedIn os r).map w.serviceId = List.range' c.firstServiceId (publishedIn os r).length
  next : g.nextService = c.firstServiceId + (publishedIn os r).length
  homed : ∀ h, h ∈ publishedIn os r ↔ w.Homed r h

/-- What was there before keeps its id. -/
theorem Allotted.ids_step (ha : Allotted c (v.onto top) os r g) (hs : Step v top out) :
    (publishedIn os r).map out.1.serviceId = List.range' c.firstServiceId (publishedIn os r).length := by
  rw [← ha.ids]
  refine List.map_congr_left fun h hmem => ?_
  exact (((ha.homed h).mp hmem).step hs).2

/-- Nothing is published at this registry. -/
theorem Allotted.quiet (ha : Allotted c (v.onto top) os r g) (hs : Step v top out) (hnone : publishedAt out.2 r = 0)
    (hnext : k.nextService = g.nextService)
    (hold : ∀ h y, out.1.registration? h = some y → y.home = r → (v.registration? h).isSome) :
    Allotted c out.1 (os ++ out.2) r k := by
  have hlist : publishedIn (os ++ out.2) r = publishedIn os r := by
    rw [publishedIn_append, publishedIn_of_count hnone, List.append_nil]
  refine ⟨?_, ?_, fun h => ?_⟩
  · rw [hlist]
    exact ha.ids_step hs
  · rw [hlist, hnext]
    exact ha.next
  · rw [hlist, ha.homed]
    constructor
    · intro hh
      exact (hh.step hs).1
    · intro hh
      obtain ⟨y, hy, hhome⟩ := hh
      obtain ⟨x, hx⟩ := Option.isSome_iff_exists.mp (hold h y hy hhome)
      obtain ⟨y', hy', hyx⟩ := origin_step hs hx
      obtain rfl := Option.some.inj (hy.symm.trans hy')
      have hhome' : y.home = x.home := (congrArg Registration.home hyx :)
      exact ⟨x, hx, hhome'.symm.trans hhome⟩

/-- The next registration has the next id. -/
theorem Allotted.publish (ha : Allotted c (v.onto top) os r g) (ht : Takes v top out) {x : Registration α}
    (hhome : x.home = r) (hid : x.id = g.nextService) (hnext : k.nextService = g.nextService + 1)
    (hset : out.1.registrations = v.registrations.push x) : Allotted c out.1 (os ++ out.2) r k := by
  have hregistration : ∀ t, out.1.registration? t = if t = v.registrations.size then some x else v.registration? t := by
    intro t
    rw [registration?, hset, Array.getElem?_push]
    rfl
  have hlist : publishedIn (os ++ out.2) r = publishedIn os r ++ [v.registrations.size] := by
    rw [publishedIn_append, ← hhome, ht.grows.publishedIn_push hset]
  have hnew : out.1.serviceId v.registrations.size = c.firstServiceId + (publishedIn os r).length := by
    rw [serviceId, hregistration, if_pos rfl, ← ha.next, ← hid]
    rfl
  refine ⟨?_, ?_, fun h => ?_⟩
  · rw [hlist, List.map_append, ha.ids_step ht.step, List.map_singleton, hnew, List.length_append,
      List.length_singleton]
    rw [List.range'_concat, Nat.one_mul]
  · rw [hlist, hnext, ha.next, List.length_append, List.length_singleton, Nat.add_assoc]
  · rw [hlist, List.mem_append, List.mem_singleton, ha.homed]
    by_cases hsize : h = v.registrations.size
    · refine iff_of_true (Or.inr hsize) ⟨x, ?_, hhome⟩
      rw [hregistration, if_pos hsize]
    · have hsame : out.1.registration? h = v.registration? h := by rw [hregistration, if_neg hsize]
      rw [or_iff_left hsize, Homed, Homed, hsame]
      rfl

theorem allotted_takes (hc : Catalogued (v.onto top)) (ht : Takes v top out) (hk : out.1.registries[r]? = some k)
    (ha : ∀ g, v.registries[r]? = some g → Allotted c (v.onto top) os r g) : Allotted c out.1 (os ++ out.2) r k := by
  obtain ⟨g, hg, hrel⟩ := relists_step hc ht hk
  have ha := ha g hg
  cases hrel with
  | keeps hkeeps _ hold hpublished =>
    unfold Registry.Keeps at hkeeps
    exact ha.quiet ht.step hpublished (by rw [hkeeps]) hold
  | publishes hhome _ hid hk hset => exact ha.publish ht hhome hid (by rw [hk]; rfl) hset
  | withdraws _ _ hk hset hpublished =>
    have hsize : out.1.registrations.size = v.registrations.size := (congrArg Array.size hset).trans (size_setPhase ..)
    refine ha.quiet ht.step hpublished (by rw [hk]; rfl) fun h y hy _ => ?_
    obtain ⟨x, hx, -⟩ := registration_back ht.step hsize hy
    rw [hx]
    rfl

theorem allotted_start {setups : List (Config × Bool)} {hasSink : Bool} (hr : setups[r]? = some (c, hasSink))
    (hg : (start setups : World α).registries[r]? = some g) : Allotted c (start setups) [] r g := by
  obtain ⟨c', hasSink', hr', rfl⟩ := registry_start hg
  obtain ⟨rfl, -⟩ := Prod.mk.inj (Option.some.inj (hr.symm.trans hr'))
  refine ⟨rfl, rfl, fun h => ?_⟩
  constructor
  · intro hmem
    cases hmem
  · intro hh
    obtain ⟨x, hx, -⟩ := hh
    cases hx

theorem allotted_run {setups : List (Config × Bool)} {hasSink : Bool} (hr : setups[r]? = some (c, hasSink))
    (hrun : (start setups).run ms = some out) (hg : out.1.registries[r]? = some g) : Allotted c out.1 out.2 r g := by
  have hall := run_induction (P := fun w os => Tallied setups w os ∧
    ∀ g, w.registries[r]? = some g → Allotted c w os r g) ?hstep ms _ [] out
    ⟨tallied_start setups, fun g hg => allotted_start hr hg⟩ hrun
  case hstep =>
    intro w os m out hP hplay
    obtain ⟨ht, ha⟩ := hP
    refine ⟨tallied_play ht hplay, ?_⟩
    obtain ⟨v, top, rfl, -, htakes⟩ := takes_of_play hplay
    exact fun k hk => allotted_takes ht.catalogued htakes hk ha
  exact hall.2 g hg

/-! ## Ids that fit -/

/-- The counter of registry `r` has not wrapped around. -/
def IdsFit (w : World α) (r : Nat) : Prop := ∀ h, w.Homed r h → w.serviceId h < 2 ^ 64

theorem IdsFit.word_lt_word (hfits : w.IdsFit r) (ht : w.Homed r t) (hlt : w.serviceId h < w.serviceId t) :
    (w.serviceId h).word < (w.serviceId t).word :=
  ServiceId.word_lt_word hlt (hfits t ht)

/-- The ids fit as long as the first one left room for all that was published. -/
theorem Allotted.fits (ha : Allotted c w os r g) (hroom : c.firstServiceId + (publishedIn os r).length ≤ 2 ^ 64) :
    w.IdsFit r := by
  intro h hh
  have hid : w.serviceId h ∈ (publishedIn os r).map w.serviceId := List.mem_map_of_mem ((ha.homed h).mpr hh)
  rw [ha.ids, List.mem_range'_1] at hid
  exact Nat.lt_of_lt_of_le hid.2 hroom

-- From the last word on there is room for one. The second has a greater id, but its word is zero.
example : ((start [(⟨2 ^ 64 - 1, "hook", 16⟩, false)]).run
    [.call 0 (.register 7 "a" (.object 1) none), .call 0 (.register 7 "b" (.object 2) none)]).map
      (fun out => (publishedIn out.2 0).map fun h => (out.1.serviceId h).word) = some [18446744073709551615, 0] := by
  decide +kernel

end World

end Switchboard
