/-
  Switchboard.Proofs.World.Lookup — a lookup finds what was there when it started.

  A lookup takes a snapshot: the active registrations of its registry that have the name, with
  the properties they have then (`Snapshot`). Without a filter it returns a new reference to each
  (`FindsAll`). A filter is asked of each in turn, once, on the properties of the snapshot, and
  what it picks is returned (`FindsPicked`): for the frame that stands for the lookup holds on to
  the rest of the snapshot, and nothing that the filter calls meanwhile can reach it
  (`filtering_play`). The lookup of one service finds the least id of the snapshot (`FindsLeast`).

  What one bundle published comes in the order of service ids, as the registry compares them: by
  their words. This asks that the ids fit, for the counter wraps around (`IdsFit`).

  What the filter of one call is asked is told apart from what those of nested calls are asked by
  the height of the stack (`exchanges`).
-/

import Switchboard.Proofs.World.Allotment
import Switchboard.Proofs.World.Events
import Switchboard.Proofs.World.References

namespace Switchboard

variable {α : Type}

abbrev Tested : Type := (Handle × Properties) × Bool

def picked (ts : List Tested) : List Handle := (ts.filter (·.2)).map (·.1.1)

def verdictsOn (r : Nat) (ts : List Tested) : List (Question α × Answer α) :=
  ts.map fun t => (.filter r t.1.2, .verdict t.2)

theorem picked_concat (ts : List Tested) (c : Handle × Properties) (b : Bool) :
    picked (ts ++ [(c, b)]) = picked ts ++ if b then [c.1] else [] := by
  cases b <;> simp [picked]

theorem verdictsOn_concat (r : Nat) (ts : List Tested) (c : Handle × Properties) (b : Bool) :
    verdictsOn (α := α) r (ts ++ [(c, b)]) = verdictsOn r ts ++ [(.filter r c.2, .verdict b)] :=
  List.map_append ..

theorem picked_sublist (ts : List Tested) : (picked ts).Sublist ((ts.map (·.1)).map (·.1)) := by
  rw [List.map_map]
  exact List.filter_sublist.map _

namespace World

variable {w v : World α} {g k : Registry α} {out mid last : Outcome α} {os : List (Occurrence α)} {r n : Nat}
  {h t : Handle} {hs : List Handle} {refs found : List Reference} {name : Option String} {ms : List (Move α)} {m : Move α}
  {cs rest : List (Handle × Properties)} {done : List Tested} {c : Handle × Properties}

/-! ## What is found -/

/-- If one bundle published both, then this one has the lesser word for its id. -/
def Sooner (w : World α) (h t : Handle) : Prop :=
  ∀ b, w.isOf b h = true → w.isOf b t = true → (w.serviceId h).word < (w.serviceId t).word

/-- The active registrations of registry `r` that have the name, if one is given, and their properties. -/
structure Snapshot (w : World α) (r : Nat) (name : Option String) (cs : List (Handle × Properties)) : Prop where
  mem : ∀ h p, (h, p) ∈ cs ↔ ∃ x, w.registration? h = some x ∧ x.home = r ∧ x.phase = .active ∧
    (∀ s ∈ name, x.name = s) ∧ x.properties = p
  once : (cs.map (·.1)).Nodup
  rising : w.IdsFit r → (cs.map (·.1)).Pairwise w.Sooner

structure Refers (w : World α) (r : Nat) (os : List (Occurrence α)) (hs : List Handle) (refs : List Reference) : Prop where
  targets : refs.map (·.target) = hs
  services : ∀ q ∈ refs, q.service = w.serviceId q.target
  minted : refs.Sublist (mintedAt os r)

/-- A call at registry `r` that gives a new reference to each of these registrations. -/
structure Gives (w : World α) (r : Nat) (out : Outcome α) (hs : List Handle) (refs : List Reference) : Prop
    extends Refers w r out.2 hs refs where
  once : (refs.map (·.target)).Nodup
  /-- Nothing handed out meanwhile has the id of another, -/
  unique : ((mintedAt out.2 r).map (·.id)).Nodup
  /-- or of what was handed out before. -/
  fresh : ∀ g, w.registries[r]? = some g → ∀ p ∈ g.references, ∀ q ∈ mintedAt out.2 r, p.id ≠ q.id
  /-- What one bundle published comes in the order of service ids, as long as they fit. -/
  rising : w.IdsFit r → refs.Pairwise fun p q =>
    ∀ b, w.isOf b p.target = true → w.isOf b q.target = true → p.service.word < q.service.word

def FindsAll (w : World α) (r : Nat) (name : Option String) (cs : List (Handle × Properties)) : Prop :=
  ∃ out refs, w.play (.call r (.find name false)) = some out ∧ out.1.stack = w.stack ∧
    out.2.getLast? = some (.returned (.references refs)) ∧ Gives w r out (cs.map (·.1)) refs

/-- What a move answers to the operation at this height of the stack. -/
def exchange (n : Nat) (w : World α) : Move α → List (Question α × Answer α)
  | .answer a => if w.stack.length = n then w.pending?.toList.map (·, a) else []
  | _ => []

def exchanges (n : Nat) (w : World α) : List (Move α) → List (Question α × Answer α)
  | [] => []
  | m :: ms =>
    match w.play m with
    | none => []
    | some out => w.exchange n m ++ out.1.exchanges n ms

/-- With a filter, those candidates are found that it picks. -/
structure FindsPicked (w : World α) (r : Nat) (name : Option String) (cs : List (Handle × Properties)) : Prop where
  starts : ∃ out, w.play (.call r (.find name true)) = some out ∧
    out.1.stack.length = w.stack.length + if cs = [] then 0 else 1
  /-- Whenever it is the filter's turn again, it has been asked of the candidates so far, once each and in
      this order, and is being asked of the next. Any verdict will do, and with the last the call returns. -/
  goesOn : ∀ ms out, Lasts w r (.find name true) ms out → out.1.stack.length = w.stack.length + 1 →
    ∃ done c rest, cs = done.map (·.1) ++ c :: rest ∧
      w.exchanges (w.stack.length + 1) (.call r (.find name true) :: ms) = verdictsOn r done ∧
      out.1.pending? = some (.filter r c.2) ∧
      ∀ b, ∃ last, out.1.play (.answer (.verdict b)) = some last ∧
        last.1.stack.length = w.stack.length + if rest = [] then 0 else 1
  /-- When it returns, the filter has been asked of all, and what it picked is returned. -/
  returns : ∀ ms out reply, Returns w r (.find name true) ms out reply →
    ∃ done refs, done.map (·.1) = cs ∧
      w.exchanges (w.stack.length + 1) (.call r (.find name true) :: ms) = verdictsOn r done ∧
      reply = .references refs ∧ Gives w r out (picked done) refs

/-! ## The snapshot -/

theorem handles_candidates (w : World α) (g : Registry α) (name : Option String) :
    (w.candidates g name).map (·.1) = (w.active g).filter fun h => name.all (w.hasName · h) := by
  rw [candidates, List.map_filterMap]
  refine (List.filterMap_congr fun h hh => ?_).trans List.filterMap_some
  obtain ⟨x, hx, -⟩ := Option.map_eq_some_iff.mp (isActive_iff.mp (List.mem_filter.mp (List.mem_filter.mp hh).1).2)
  rw [hx]
  rfl

theorem sooner_members (hc : w.Catalogued) (hi : w.Indexes r g) (hfits : w.IdsFit r) :
    g.index.members.Pairwise w.Sooner := by
  refine Shelf.pairwise_members Keying.bundle_lawful hi.tidy.isMap (fun b => ?_) fun b c h t hbc hh ht d hd hd' => ?_
  · have hrise := serviceIds_rise hc r (w.isOf b)
    rw [← hi.owned] at hrise
    refine (List.pairwise_map.mp hrise).imp_of_mem fun {h t} _ ht hlt _ _ _ => hfits.word_lt_word ?_ hlt
    obtain ⟨x, hx, hhome, -⟩ := (mem_owned hi).mp ht
    exact ⟨x, hx, hhome⟩
  · -- Under different bundles there is nothing that one bundle published.
    obtain ⟨x, hx, -, hbundle, -⟩ := (mem_owned hi).mp hh
    obtain ⟨y, hy, -, hbundle', -⟩ := (mem_owned hi).mp ht
    obtain ⟨x', hx', rfl⟩ := isOf_iff.mp hd
    obtain ⟨y', hy', heq⟩ := isOf_iff.mp hd'
    obtain rfl := Option.some.inj (hx.symm.trans hx')
    obtain rfl := Option.some.inj (hy.symm.trans hy')
    have hsame : Keying.bundle.same b c = true := (Keying.same_bundle b c).mpr (by rw [← hbundle, ← hbundle', heq])
    rw [hsame] at hbc
    cases hbc

theorem snapshot_candidates (hc : w.Catalogued) (hi : w.Indexes r g) (name : Option String) :
    w.Snapshot r name (w.candidates g name) := by
  have hsub : ((w.candidates g name).map (·.1)).Sublist g.index.members := by
    rw [handles_candidates]
    exact List.filter_sublist.trans List.filter_sublist
  refine ⟨fun h p => ?_, (nodup_members hi).sublist hsub, fun hfits => (sooner_members hc hi hfits).sublist hsub⟩
  have hall : ∀ {x : Registration α}, w.registration? h = some x →
      ((name.all fun s => w.hasName s h) = true ↔ ∀ s ∈ name, x.name = s) := by
    intro x hx
    cases name <;> simp [hasName, hx]
  rw [candidates, List.mem_filterMap]
  constructor
  · rintro ⟨t, ht, hp⟩
    obtain ⟨x, hx, hxp⟩ := Option.map_eq_some_iff.mp hp
    obtain ⟨rfl, rfl⟩ := Prod.mk.inj hxp
    obtain ⟨hactive, hname⟩ := List.mem_filter.mp ht
    obtain ⟨y, hy, hhome, hphase⟩ := isPublic_iff.mp (mem_publications.mp ((mem_active hi).mp hactive))
    obtain rfl := Option.some.inj (hx.symm.trans hy)
    exact ⟨x, hx, hhome, hphase, (hall hx).mp hname, rfl⟩
  · rintro ⟨x, hx, hhome, hphase, hname, rfl⟩
    have hpublic : h ∈ w.publications r := mem_publications.mpr (isPublic_iff.mpr ⟨x, hx, hhome, hphase⟩)
    exact ⟨h, List.mem_filter.mpr ⟨(mem_active hi).mpr hpublic, (hall hx).mpr hname⟩, by rw [hx]; rfl⟩

theorem Snapshot.homed (hsnapshot : w.Snapshot r name cs) (ht : t ∈ cs.map (·.1)) : w.Homed r t := by
  obtain ⟨⟨t, p⟩, hp, rfl⟩ := List.mem_map.mp ht
  obtain ⟨x, hx, hhome, -⟩ := (hsnapshot.mem t p).mp hp
  exact ⟨x, hx, hhome⟩

/-! ## References -/

theorem Refers.nil (w : World α) (r : Nat) (os : List (Occurrence α)) : Refers w r os [] [] :=
  ⟨rfl, by simp, List.nil_sublist _⟩

theorem Refers.after (href : Refers w r os hs refs) (os' : List (Occurrence α)) : Refers w r (os ++ os') hs refs := by
  refine ⟨href.targets, href.services, ?_⟩
  rw [mintedAt_append]
  exact href.minted.trans (List.sublist_append_left ..)

theorem mint_of_get (hg : v.registries[r]? = some g) (h : Handle) :
    v.mint r h = (some (g.mint (v.serviceId h) h).1, v.setRegistry r (g.mint (v.serviceId h) h).2,
      [.minted r (g.mint (v.serviceId h) h).1]) := by
  rw [mint, hg]

theorem serviceId_mint (v : World α) (r : Nat) (h t : Handle) : (v.mint r h).2.1.serviceId t = v.serviceId t := by
  unfold mint
  split <;> rfl

theorem Refers.mint (href : Refers w r os hs refs) (hg : v.registries[r]? = some g) (hid : v.serviceId h = w.serviceId h) :
    Refers w r (os ++ (v.mint r h).2.2) (hs ++ [h]) (refs ++ (v.mint r h).1.toList) := by
  rw [mint_of_get hg]
  refine ⟨?_, fun q hq => ?_, ?_⟩
  · rw [List.map_append, href.targets]
    rfl
  · rcases List.mem_append.mp hq with hq | hq
    · exact href.services q hq
    · rw [List.mem_singleton.mp hq]
      exact hid
  · rw [mintedAt_append]
    have hone : mintedAt [Occurrence.minted (α := α) r (g.mint (v.serviceId h) h).1] r = [(g.mint (v.serviceId h) h).1] := by
      simp [mintedAt, Occurrence.mintedAt?]
    rw [hone]
    exact href.minted.append (List.Sublist.refl _)

theorem Refers.mintAll {ks : List Handle} (href : Refers w r os hs refs) (hg : v.registries[r]? = some g)
    (hid : ∀ t, v.serviceId t = w.serviceId t) :
    Refers w r (os ++ (v.mintAll r ks).2.2) (hs ++ ks) (refs ++ (v.mintAll r ks).1) := by
  induction ks generalizing v g os hs refs with
  | nil =>
    simp only [World.mintAll, List.append_nil]
    exact href
  | cons t ks ih =>
    obtain ⟨k, hk, -⟩ := (handsOut_mint v r t).each r g hg
    have hnext := ih (href.mint hg (hid t)) hk fun u => (serviceId_mint v r t u).trans (hid u)
    simp only [List.append_assoc, List.singleton_append] at hnext
    exact hnext

/-- The ids are those that come next, in a registry that has numbered its references. -/
theorem gives_of (hg : w.registries[r]? = some g) (hnumbered : ∀ p ∈ g.references, p.id ≤ g.references.size)
    (hhands : HandsOut w out) (href : Refers w r out.2 hs refs) (hsnapshot : w.Snapshot r name cs)
    (hsub : hs.Sublist (cs.map (·.1))) : Gives w r out hs refs := by
  obtain ⟨k, -, hands⟩ := hhands.each r g hg
  refine ⟨href, href.targets ▸ hsnapshot.once.sublist hsub, hands.nodup, fun l hl p hp q hq heq => ?_, fun hfits => ?_⟩
  · obtain rfl := Option.some.inj (hg.symm.trans hl)
    have hid : q.id ∈ (mintedAt out.2 r).map (·.id) := List.mem_map_of_mem hq
    rw [hands.ids, List.mem_range'_1] at hid
    have hle := hnumbered p hp
    omega
  · have hrise := (hsnapshot.rising hfits).sublist hsub
    rw [← href.targets] at hrise
    refine (List.pairwise_map.mp hrise).imp_of_mem fun {p q} hp hq hsooner b hb hb' => ?_
    rw [href.services p hp, href.services q hq]
    exact hsooner b hb hb'

/-- In every run the references of a registry are numbered from one on. -/
theorem numbered_run {setups : List (Config × Bool)} (hrun : (start setups).run ms = some out)
    (hg : out.1.registries[r]? = some g) : ∀ p ∈ g.references, p.id ≤ g.references.size := by
  have hlt : r < (start setups : World α).registries.size := by
    have hsize := (tallied_run hrun).size
    have hr := (Array.getElem?_eq_some_iff.mp hg).1
    simp only [start, List.size_toArray, List.length_map]
    omega
  obtain ⟨k, hk, hands⟩ := (handsOut_run hrun).each r _ (Array.getElem?_eq_getElem hlt)
  obtain rfl := Option.some.inj (hg.symm.trans hk)
  obtain ⟨c, hasSink, -, hstart⟩ := registry_start (Array.getElem?_eq_getElem hlt)
  have hempty : (start setups : World α).registries[r].references = #[] := by
    rw [hstart]
    rfl
  have hall := hands.references
  have hids := hands.ids
  rw [hempty] at hall hids
  rw [List.nil_append] at hall
  intro p hp
  have hid : p.id ∈ (mintedAt out.2 r).map (·.id) := by
    rw [← hall]
    exact List.mem_map_of_mem (Array.mem_toList_iff.mpr hp)
  rw [hids, List.mem_range'_1, ← hall, Array.length_toList] at hid
  simp only [List.size_toArray, List.length_nil] at hid
  omega

/-- Service ids stay. -/
theorem serviceId_run (hrun : w.run ms = some out) {x : Registration α} (hx : w.registration? h = some x) :
    out.1.serviceId h = w.serviceId h := by
  obtain ⟨y, hy, hyx⟩ := origin_run hrun hx
  have hid : y.id = x.id := (congrArg Registration.id hyx :)
  rw [serviceId, serviceId, hx, hy, Option.map_some, Option.map_some, hid]

/-! ## Lookups that return at once -/

theorem findsAll_of (hg : w.registries[r]? = some g) (hnumbered : ∀ p ∈ g.references, p.id ≤ g.references.size)
    (hturn : w.isClientsTurn = true) (hsnapshot : w.Snapshot r name (w.candidates g name)) :
    w.FindsAll r name (w.candidates g name) := by
  have hplay := play_call hturn (show w.allows (.find name false) = true from rfl) hg
  rw [call, find, if_neg Bool.false_ne_true, returnAll_eq hturn] at hplay
  have href : Refers w r (_ ++ _) ([] ++ (w.candidates g name).map (·.1)) _ :=
    (Refers.nil w r [.called r (.find name false)]).mintAll hg fun _ => rfl
  have hgives := gives_of hg hnumbered (handsOut_play hplay) (href.after _) hsnapshot (List.Sublist.refl _)
  refine ⟨_, _, hplay, (mintAll_idle ..).2.1, ?_, hgives⟩
  show (_ :: (_ ++ [_])).getLast? = _
  rw [← List.cons_append, List.getLast?_append]
  rfl

/-- Of what one registry published, only one has the least id. -/
theorem leastId_lt (hc : w.Catalogued) (hsnapshot : w.Snapshot r name cs) (hleast : w.leastId (cs.map (·.1)) = some h) :
    ∀ t ∈ cs.map (·.1), t ≠ h → w.serviceId h < w.serviceId t := by
  have hid : ∀ t ∈ cs.map (·.1), ∃ x, w.registration? t = some x ∧ x.home = r ∧ w.serviceId t = x.id := by
    intro t ht
    obtain ⟨x, hx, hhome⟩ := hsnapshot.homed ht
    exact ⟨x, hx, hhome, by rw [serviceId, hx]; rfl⟩
  intro t ht hne
  obtain ⟨x, hx, hhome, hxid⟩ := hid h (mem_of_leastId hleast)
  obtain ⟨y, hy, hhome', hyid⟩ := hid t ht
  have hle := leastId_le hleast t ht
  rw [hxid, hyid] at hle ⊢
  rcases Nat.lt_or_gt_of_ne hne with hlt | hgt
  · exact absurd (hc.rising t h y x hlt hy hx (hhome'.trans hhome.symm)) (Nat.not_lt.mpr hle)
  · exact hc.rising h t x y hgt hx hy (hhome.trans hhome'.symm)

theorem exchanges_concat (ms : List (Move α)) (hrun : w.run ms = some mid) (hplay : mid.1.play m = some last) :
    w.exchanges n (ms ++ [m]) = w.exchanges n ms ++ mid.1.exchange n m := by
  induction ms generalizing w mid with
  | nil =>
    obtain rfl := Option.some.inj hrun
    simp [exchanges, hplay]
  | cons m' ms ih =>
    unfold run at hrun
    obtain ⟨⟨w', os'⟩, hplay', hrest⟩ := Option.bind_eq_some_iff.mp hrun
    obtain ⟨⟨w'', os''⟩, hrun', hout⟩ := Option.bind_eq_some_iff.mp hrest
    obtain rfl := Option.some.inj hout
    simp only [List.cons_append, exchanges, hplay', ih hrun' hplay, List.append_assoc]

theorem exchange_of_not_answer (hm : ∀ a, m ≠ .answer a) : w.exchange n m = [] := by
  cases m with
  | answer a => exact absurd rfl (hm a)
  | _ => rfl

theorem exchange_of_ne (hn : w.stack.length ≠ n) : w.exchange n m = [] := by
  cases m with
  | answer a => exact if_neg hn
  | _ => rfl

def judged (v : World α) (r : Nat) (h : Handle) (found : List Reference) : Bool → List Reference × Outcome α
  | true => (found ++ (v.mint r h).1.toList, (v.mint r h).2)
  | false => (found, v, [])

theorem Refers.judged (href : Refers w r os hs found) (hg : v.registries[r]? = some g)
    (hid : v.serviceId h = w.serviceId h) (b : Bool) :
    Refers w r (os ++ (v.judged r h found b).2.2) (hs ++ if b then [h] else []) (v.judged r h found b).1 := by
  cases b with
  | true => exact href.mint hg hid
  | false =>
    rw [if_neg Bool.false_ne_true, List.append_nil]
    exact href.after []

theorem stack_judged (v : World α) (r : Nat) (h : Handle) (found : List Reference) (b : Bool) :
    (v.judged r h found b).2.1.stack = v.stack := by
  cases b with
  | true => exact stack_mint v r h
  | false => rfl

/-- The filter's answer hands out a reference if it is to, and the next candidate is up. -/
theorem play_verdict {s : List (Frame α)} (hstack : w.stack = .filtering r c.1 c.2 rest found :: s) (b : Bool) :
    w.play (.answer (.verdict b)) = some (after [.answered (.filter r c.2) (.verdict b)]
      (after (judged { w with stack := s } r c.1 found b).2.2
        ((judged { w with stack := s } r c.1 found b).2.1.filterNext r (judged { w with stack := s } r c.1 found b).1 rest))) := by
  rw [play, answer?, hstack]
  cases b <;> rfl

/-- A lookup whose snapshot is `cs`, after the moves `ms` with its call. -/
inductive Filtering (w : World α) (r : Nat) (cs : List (Handle × Properties)) (ms : List (Move α)) (out : Outcome α) : Prop
  | asking (p : List (Frame α)) (done : List Tested) (c : Handle × Properties) (rest : List (Handle × Properties))
      (found : List Reference) (hstack : out.1.stack = p ++ .filtering r c.1 c.2 rest found :: w.stack)
      (hcs : cs = done.map (·.1) ++ c :: rest) (hasked : w.exchanges (w.stack.length + 1) ms = verdictsOn r done)
      (href : Refers w r out.2 (picked done) found)
  | ended (done : List Tested) (found : List Reference) (hstack : out.1.stack = w.stack) (hcs : cs = done.map (·.1))
      (hasked : w.exchanges (w.stack.length + 1) ms = verdictsOn r done) (href : Refers w r out.2 (picked done) found)
      (hreply : out.2.getLast? = some (.returned (.references found)))

theorem filtering_next (hstack : v.stack = w.stack) (hturn : w.isClientsTurn = true)
    (hcs : cs = done.map (·.1) ++ rest) (hasked : w.exchanges (w.stack.length + 1) ms = verdictsOn r done)
    (href : Refers w r os (picked done) found) :
    Filtering w r cs ms ((v.filterNext r found rest).1, os ++ (v.filterNext r found rest).2) := by
  cases rest with
  | nil =>
    rw [filterNext, finish_eq ((isClientsTurn_eq hstack).trans hturn) (by simp)]
    refine .ended done found hstack (hcs.trans (List.append_nil _)) hasked (href.after _) ?_
    rw [List.getLast?_append]
    rfl
  | cons c rest =>
    refine .asking [] done c rest found ?_ hcs hasked (href.after _)
    show _ :: v.stack = _ :: w.stack
    rw [hstack]

/-- The filter's verdict on the candidate `c`. -/
theorem filtering_judged (hstack : v.stack = w.stack) (hturn : w.isClientsTurn = true) (hg : v.registries[r]? = some g)
    (hid : v.serviceId c.1 = w.serviceId c.1) (hcs : cs = done.map (·.1) ++ c :: rest) (b : Bool)
    (hasked : w.exchanges (w.stack.length + 1) ms = verdictsOn r (done ++ [(c, b)]))
    (href : Refers w r os (picked done) found) {next : Outcome α}
    (hnext : (v.judged r c.1 found b).2.1.filterNext r (v.judged r c.1 found b).1 rest = next) :
    Filtering w r cs ms (next.1, os ++ (v.judged r c.1 found b).2.2 ++ next.2) := by
  have hjudged := href.judged hg hid b
  rw [← picked_concat] at hjudged
  have hcs' : cs = (done ++ [(c, b)]).map (·.1) ++ rest := by
    rw [hcs, List.map_append, List.append_assoc]
    rfl
  rw [← hnext]
  exact filtering_next ((stack_judged ..).trans hstack) hturn hcs' hasked hjudged

/-- Nothing but its own answers moves a lookup on. -/
theorem filtering_play (hf : Filtering w r cs ms out) (hmore : w.stack.length < out.1.stack.length)
    (hturn : w.isClientsTurn = true) (hrun : w.run ms = some out) (hg : out.1.registries[r]? = some g)
    (hid : ∀ c ∈ cs, out.1.serviceId c.1 = w.serviceId c.1) (hplay : out.1.play m = some last) :
    Filtering w r cs (ms ++ [m]) (last.1, out.2 ++ last.2) := by
  cases hf with
  | ended done found hstack =>
    rw [hstack] at hmore
    exact absurd hmore (Nat.lt_irrefl _)
  | asking p done c rest found hstack hcs hasked href =>
    have hexchanges := exchanges_concat (n := w.stack.length + 1) ms hrun hplay
    rw [hasked] at hexchanges
    -- A move that is not the answer leaves the lookup where it is.
    have hkept : ∀ p', last.1.stack = p' ++ .filtering r c.1 c.2 rest found :: w.stack →
        out.1.exchange (w.stack.length + 1) m = [] → Filtering w r cs (ms ++ [m]) (last.1, out.2 ++ last.2) := by
      intro p' hstack' hnone
      rw [hnone, List.append_nil] at hexchanges
      exact .asking p' done c rest found hstack' hcs hexchanges (href.after _)
    cases p with
    | cons k p =>
      rcases play_inside hplay hstack with ⟨p', hstack', -⟩ | ⟨hp, -⟩
      · refine hkept p' hstack' (exchange_of_ne ?_)
        rw [hstack, List.length_append, List.length_cons, List.length_cons]
        omega
      · cases hp
    | nil =>
      by_cases hm : ∀ a, m ≠ .answer a
      · rcases play_onTop hm hplay with ⟨p', hstack'⟩ | htick
        · rw [hstack] at hstack'
          exact hkept p' hstack' (exchange_of_not_answer hm)
        · rw [tick?, show out.1.stack = _ from hstack] at htick
          cases htick
      · obtain ⟨a, rfl⟩ := not_forall_not.mp hm
        cases a with
        | verdict b =>
          rw [play_verdict hstack] at hplay
          obtain rfl := Option.some.inj hplay
          have hanswer : out.1.exchange (w.stack.length + 1) (.answer (.verdict b)) = [(.filter r c.2, .verdict b)] := by
            rw [exchange, pending?, show out.1.stack = _ from hstack]
            exact if_pos rfl
          rw [hanswer, ← verdictsOn_concat] at hexchanges
          have hjudged := filtering_judged (w := w) (v := { out.1 with stack := w.stack }) rfl hturn hg
            (hid c (by simp [hcs])) hcs b hexchanges (href.after [.answered (.filter r c.2) (.verdict b)]) rfl
          simpa [World.after] using hjudged
        | done =>
          rw [play, answer?, show out.1.stack = _ from hstack] at hplay
          cases hplay
        | supplied o =>
          rw [play, answer?, show out.1.stack = _ from hstack] at hplay
          cases hplay

theorem filtering_call (hturn : w.isClientsTurn = true) (hg : w.registries[r]? = some g)
    (hplay : w.play (.call r (.find name true)) = some out) :
    Filtering w r (w.candidates g name) [.call r (.find name true)] out := by
  obtain ⟨-, -, k, hk, rfl⟩ := calls_of_play hplay
  obtain rfl := Option.some.inj (hg.symm.trans hk)
  rw [call, find, if_pos rfl]
  have hasked : w.exchanges (w.stack.length + 1) [.call r (.find name true)] = verdictsOn r [] := by
    rw [exchanges, hplay]
    rfl
  exact filtering_next rfl hturn rfl hasked (Refers.nil ..)

theorem filtering_step (hturn : w.isClientsTurn = true) (hg : w.registries[r]? = some g)
    (hsnapshot : w.Snapshot r name cs) (hlasts : Lasts w r (.find name true) ms out)
    (hf : Filtering w r cs (.call r (.find name true) :: ms) out) (hplay : out.1.play m = some last) :
    Filtering w r cs (.call r (.find name true) :: (ms ++ [m])) (last.1, out.2 ++ last.2) := by
  obtain ⟨k, hk, -⟩ := (handsOut_run hlasts.run).each r g hg
  refine filtering_play hf (hlasts.inside ms (List.prefix_refl _) out hlasts.run) hturn hlasts.run hk ?_ hplay
  rintro ⟨t, p⟩ hc
  obtain ⟨x, hx, -⟩ := (hsnapshot.mem t p).mp hc
  exact serviceId_run hlasts.run hx

/-- While it lasts, the lookup goes through the snapshot. -/
theorem filtering_lasts (hturn : w.isClientsTurn = true) (hg : w.registries[r]? = some g)
    (hsnapshot : w.Snapshot r name (w.candidates g name)) (hlasts : Lasts w r (.find name true) ms out) :
    Filtering w r (w.candidates g name) (.call r (.find name true) :: ms) out :=
  hlasts.induction (P := fun ms o => Filtering w r _ (.call r (.find name true) :: ms) o)
    (fun _ hplay _ => filtering_call hturn hg hplay)
    (fun _ _ _ _ hl hf hplay _ => filtering_step hturn hg hsnapshot hl hf hplay)

theorem filtering_returns {reply : Reply α} (hturn : w.isClientsTurn = true) (hg : w.registries[r]? = some g)
    (hsnapshot : w.Snapshot r name (w.candidates g name)) (hret : Returns w r (.find name true) ms out reply) :
    Filtering w r (w.candidates g name) (.call r (.find name true) :: ms) out := by
  rcases hret.cases with ⟨rfl, hplay⟩ | ⟨l, m, mid, last, rfl, hlasts, hplay, rfl⟩
  · exact filtering_call hturn hg hplay
  · exact filtering_step hturn hg hsnapshot hlasts (filtering_lasts hturn hg hsnapshot hlasts) hplay

theorem length_filterNext (v : World α) (r : Nat) (found : List Reference) (cs : List (Handle × Properties)) :
    (v.filterNext r found cs).1.stack.length = v.stack.length + if cs = [] then 0 else 1 := by
  cases cs with
  | nil => rw [filterNext, stack_finish, if_pos rfl, Nat.add_zero]
  | cons c cs => rw [filterNext, place, if_neg (List.cons_ne_nil c cs), List.length_cons]

theorem findsPicked_of (hg : w.registries[r]? = some g) (hnumbered : ∀ p ∈ g.references, p.id ≤ g.references.size)
    (hturn : w.isClientsTurn = true) (hsnapshot : w.Snapshot r name (w.candidates g name)) :
    w.FindsPicked r name (w.candidates g name) where
  starts := by
    refine ⟨_, play_call hturn rfl hg, ?_⟩
    rw [call, find, if_pos rfl, World.after, length_filterNext]
  goesOn ms out hlasts hheight := by
    cases filtering_lasts hturn hg hsnapshot hlasts with
    | ended done found hstack =>
      rw [hstack] at hheight
      omega
    | asking p done c rest found hstack hcs hasked =>
      rw [hstack, List.length_append, List.length_cons] at hheight
      obtain rfl : p = [] := List.eq_nil_of_length_eq_zero (by omega)
      refine ⟨done, c, rest, hcs, hasked, ?_, fun b => ⟨_, play_verdict hstack b, ?_⟩⟩
      · rw [pending?, hstack]
        rfl
      · rw [World.after, World.after, length_filterNext, stack_judged]
  returns ms out reply hret := by
    cases filtering_returns hturn hg hsnapshot hret with
    | asking p done c rest found hstack =>
      have hback := hret.back
      rw [hstack, List.length_append, List.length_cons] at hback
      omega
    | ended done found hstack hcs hasked href hreply =>
      obtain rfl := Occurrence.returned.inj (Option.some.inj (hret.reply.symm.trans hreply))
      refine ⟨done, found, hcs.symm, hasked, rfl, gives_of hg hnumbered (handsOut_run hret.run) href hsnapshot ?_⟩
      rw [hcs]
      exact picked_sublist done

/-! ## Every lookup -/

def targetsReturned? (os : List (Occurrence Nat)) : Option (List Handle) :=
  match os.getLast? with
  | some (.returned (.references refs)) => some (refs.map (·.target))
  | _ => none

theorem returned_of_targets {os : List (Occurrence Nat)} {hs : List Handle} (htargets : targetsReturned? os = some hs) :
    ∃ refs, os.getLast? = some (.returned (.references refs)) ∧ refs.map (·.target) = hs := by
  unfold targetsReturned? at htargets
  split at htargets
  · rename_i refs hlast
    exact ⟨refs, hlast, Option.some.inj htargets⟩
  · cases htargets

end World

end Switchboard
