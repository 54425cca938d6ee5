/-
  Switchboard.Proofs.World.Numbering — how ids are given.

  A registry gives each registration the next service id when it publishes it (`Allotted`), and
  each reference the next reference id when it is handed out. Nothing gives an id back. So at
  every moment of every run, whatever call backs do, the registrations published so far have the
  service ids from the first one on, and the references handed out so far those from one on. A
  registration keeps its id when it is withdrawn, and the count goes on from there.

  The lookups return what they handed out; the list of the services in use hands out nothing and
  returns the references by which the uses were taken (`ids_in_order`).

  Ids are numbers without a bound here, and the registry's own agree with them until its counter
  runs out.
-/

import Switchboard.Proofs.World.Minting
import Switchboard.Proofs.World.Reclaim

namespace Switchboard

variable {α : Type}

namespace World

variable {w : World α} {g : Registry α} {out : Outcome α} {os : List (Occurrence α)} {r : Nat} {c : Config}
  {ms : List (Move α)}

/-! ## Reference ids -/

/-- The references that a registry handed out are numbered from one on. -/
theorem ids_minted {setups : List (Config × Bool)} {hasSink : Bool} (hr : setups[r]? = some (c, hasSink))
    (hrun : (start setups).run ms = some out) :
    (mintedAt out.2 r).map (·.id) = List.range' 1 (mintedAt out.2 r).length := by
  have hg : (start setups : World α).registries[r]? = some (Registry.ofConfig c hasSink) := by
    rw [start, List.getElem?_toArray, List.getElem?_map, hr]
    rfl
  obtain ⟨k, -, hands⟩ := (handsOut_run hrun).each r _ hg
  exact hands.ids

/-! ## Calls -/

/-- In a list whose numbers follow on one another, each has its place. -/
theorem nth_of_range' {α : Type} {f : α → Nat} {l : List α} {s : Nat} (hl : l.map f = List.range' s l.length) {n : Nat}
    {x : α} (hx : l[n]? = some x) : f x = s + n := by
  have hmap : (l.map f)[n]? = some (f x) := by rw [List.getElem?_map, hx, Option.map_some]
  have hn : n < l.length := (List.getElem?_eq_some_iff.mp hx).1
  rw [hl, List.getElem?_range' hn, Nat.one_mul] at hmap
  exact (Option.some.inj hmap).symm

structure InOrder (c : Config) (w : World α) (os : List (Occurrence α)) (r : Nat) : Prop where
  /-- The service ids go from the first one on, in the order of publishing, and never fall back. -/
  service : ∀ n h, (publishedIn os r)[n]? = some h → w.serviceId h = c.firstServiceId + n
  serviceRises : ((publishedIn os r).map w.serviceId).Pairwise (· < ·)
  /-- What was published here is all there is of this registry, withdrawn or not. -/
  published : ∀ h, h ∈ publishedIn os r ↔ w.Homed r h
  reference : ∀ n q, (mintedAt os r)[n]? = some q → q.id = 1 + n
  referenceRises : ((mintedAt os r).map (·.id)).Pairwise (· < ·)
  refers : ∀ q ∈ mintedAt os r, w.Homed r q.target ∧ q.service = w.serviceId q.target

structure Numbers (c : Config) (w : World α) (os : List (Occurrence α)) (r : Nat) : Prop where
  refuses : ∀ b name source p, w.isClientsTurn = true → Text.isBlank name = true →
    w.play (.call r (.register b name source p)) =
      some (w, [.called r (.register b name source p), .returned (.refused .emptyName)])
  registers : ∀ b name source p, w.isClientsTurn = true → Text.isBlank name = false →
    ∃ out, w.play (.call r (.register b name source p)) = some out ∧ publishedIn out.2 r = [w.registrations.size] ∧
      out.1.serviceId w.registrations.size = c.firstServiceId + (publishedIn os r).length
  /-- Ids are used up by what is published and handed out, and by nothing else; none comes back. -/
  counts : ∀ m out g k, w.play m = some out → w.registries[r]? = some g → out.1.registries[r]? = some k →
    k.nextService = g.nextService + (publishedIn out.2 r).length ∧
    k.references.size = g.references.size + (mintedAt out.2 r).length
  stays : ∀ ms out h, w.run ms = some out → w.Homed r h → out.1.serviceId h = w.serviceId h
  lookups : ∀ op ms out reply, op.listsActive = true → Returns w r op ms out reply →
    reply.mentions.Sublist (mintedAt out.2 r)
  /-- The services in use are told by the references that the uses were taken by. -/
  inUse : ∀ b, w.isClientsTurn = true → w.play (.call r (.inUse b)) =
      some (w, [.called r (.inUse b), .returned (.references (w.usedAt r b))]) ∧
    ∀ q ∈ w.usedAt r b, .acquired r b q ∈ os

theorem inOrder_of {setups : List (Config × Bool)} {hasSink : Bool} (hr : setups[r]? = some (c, hasSink))
    (hrun : (start setups).run ms = some (w, os)) (hg : w.registries[r]? = some g) : InOrder c w os r := by
  have ha := allotted_run hr hrun hg
  have hids := ids_minted hr hrun
  refine ⟨fun n h hn => nth_of_range' ha.ids hn, ?_, ha.homed, fun n q hn => nth_of_range' hids hn, ?_,
    serviced_run hrun r⟩
  · rw [ha.ids]
    exact List.pairwise_lt_range'
  · rw [hids]
    exact List.pairwise_lt_range'

theorem refuses_of (hg : w.registries[r]? = some g) (b : BundleId) {name : String} (source : Source α)
    (p : Option Properties) (hturn : w.isClientsTurn = true) (hblank : Text.isBlank name = true) :
    w.play (.call r (.register b name source p)) =
      some (w, [.called r (.register b name source p), .returned (.refused .emptyName)]) := by
  have hcall : w.call r g (.register b name source p) = w.finish (.refused .emptyName) := if_pos hblank
  have hfinish : w.finish (.refused .emptyName) = (w, [.returned (.refused .emptyName)]) := finish_eq hturn (by simp)
  rw [play_call hturn rfl hg, hcall, hfinish]
  rfl

/-- A name that is not blank is published in the first section of the call. -/
theorem registrations_register (w : World α) (r : Nat) (g : Registry α) (b : BundleId) {name : String}
    (source : Source α) (p : Option Properties) (hname : Text.isBlank name = false) :
    (w.register r g b name source p).1.registrations = w.registrations.push (newcomer r g b name source p) := by
  unfold register
  rw [if_neg (by rw [hname]; exact Bool.false_ne_true)]
  dsimp only
  split
  · rfl
  · unfold finish
    split <;> rfl

theorem registers_of (hg : w.registries[r]? = some g) (ha : Allotted c w os r g) (b : BundleId)
    {name : String} (source : Source α) (p : Option Properties) (hturn : w.isClientsTurn = true)
    (hname : Text.isBlank name = false) :
    ∃ out, w.play (.call r (.register b name source p)) = some out ∧ publishedIn out.2 r = [w.registrations.size] ∧
      out.1.serviceId w.registrations.size = c.firstServiceId + (publishedIn os r).length := by
  have hset := registrations_register w r g b source p hname
  refine ⟨_, play_call hturn rfl hg, ?_, ?_⟩
  · exact (grows_register w hg b name source p).publishedIn_push hset
  · rw [serviceId, registration?]
    show (((w.register r g b name source p).1.registrations[w.registrations.size]?).map _).getD 0 = _
    rw [hset, Array.getElem?_push_size, ← ha.next]
    rfl

theorem numbers_of {setups : List (Config × Bool)} {hasSink : Bool} (hr : setups[r]? = some (c, hasSink))
    (hrun : (start setups).run ms = some (w, os)) (hg : w.registries[r]? = some g) : Numbers c w os r where
  refuses b _ source p hturn hblank := refuses_of hg b source p hturn hblank
  registers b _ source p hturn hname := registers_of hg (allotted_run hr hrun hg) b source p hturn hname
  counts m out l k hplay hl hk := by
    obtain rfl := Option.some.inj (hg.symm.trans hl)
    have hbefore := (allotted_run hr hrun hg).next
    have hnext : (start setups).run (ms ++ [m]) = some (out.1, os ++ out.2) := run_extend hrun hplay
    have hafter := (allotted_run hr hnext hk).next
    rw [publishedIn_append, List.length_append] at hafter
    obtain ⟨k', hk', hands⟩ := (handsOut_play hplay).each r g hg
    obtain rfl := Option.some.inj (hk.symm.trans hk')
    have hsize := congrArg List.length hands.references
    rw [List.length_append, Array.length_toList, Array.length_toList] at hsize
    refine ⟨?_, hsize⟩
    rw [hafter, hbefore, Nat.add_assoc]
  stays ms' out h hrun' hh := by
    obtain ⟨x, hx, -⟩ := hh
    exact serviceId_run hrun' hx
  lookups op ms' out reply hop hret := minted_of_returns (tallied_run hrun).catalogued hg hop hret
  inUse b hturn := by
    have hused : g.ledger.references b = w.usedAt r b := by
      rw [usedAt, hg]
      rfl
    refine ⟨?_, fun q hq => (taken_run hrun).2 r b q hq⟩
    rw [play_call hturn rfl hg, call, finish_eq hturn (by simp), hused]
    rfl

/-- In every reachable world a registry has given its ids in order, and goes on so. -/
theorem ids_in_order {setups : List (Config × Bool)} {hasSink : Bool} (hr : setups[r]? = some (c, hasSink))
    (hrun : (start setups).run ms = some (w, os)) : InOrder c w os r ∧ Numbers c w os r := by
  have hlt : r < w.registries.size := by
    rw [(tallied_run hrun).size]
    exact (List.getElem?_eq_some_iff.mp hr).1
  have hg : w.registries[r]? = some w.registries[r] := Array.getElem?_eq_getElem hlt
  exact ⟨inOrder_of hr hrun hg, numbers_of hr hrun hg⟩

/-- While the sink is told of the first service, it tries a blank name, publishes another service
    and withdraws it, and publishes a third. -/
def publishedInSink : List (Move Nat) :=
  [.call 0 (.register 7 "a" (.object 1) none), .call 0 (.register 7 " " (.object 2) none),
   .call 0 (.register 7 "b" (.object 3) none), .answer .done, .call 0 (.findOne "b"),
   .call 0 (.unregister 7 1), .answer .done, .tick, .tick,
   .call 0 (.register 7 "c" (.object 4) none), .answer .done, .answer .done, .call 0 (.find none false)]

theorem ids_in_order_publishedInSink : ∃ w os, [(Config.standard, true)][0]? = some (Config.standard, true) ∧
    (start [(Config.standard, true)]).run publishedInSink = some (w, os) ∧ publishedIn os 0 = [0, 1, 2] ∧
    (mintedAt os 0).length = 3 ∧ InOrder Config.standard w os 0 ∧ Numbers Config.standard w os 0 := by
  have hany : ((start [(Config.standard, true)]).run publishedInSink).any (fun out =>
      publishedIn out.2 0 == [0, 1, 2] && (mintedAt out.2 0).length == 3) = true := by decide +kernel
  obtain ⟨⟨w, os⟩, hrun, hout⟩ := (Option.any_eq_true _ _).mp hany
  obtain ⟨hpublished, hminted⟩ := Bool.and_eq_true_iff.mp hout
  obtain ⟨horder, hnumbers⟩ := ids_in_order (r := 0) (c := Config.standard) rfl hrun
  exact ⟨w, os, rfl, hrun, beq_iff_eq.mp hpublished, beq_iff_eq.mp hminted, horder, hnumbers⟩

end World

end Switchboard
