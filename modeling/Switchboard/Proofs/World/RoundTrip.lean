/-
  Switchboard.Proofs.World.RoundTrip — giving back as many uses as were taken.

  While no `get` is in flight, a bundle takes a number of uses of a valid registration and gives
  them all back, and the factory calls nothing and does make an object. Then all calls succeed,
  and the ledger is as it was, entry by entry (`unget_undoes_get`). A factory is asked for an
  object only if the pair was unused before, once, and gets it back with the last use.

  In between, the ledger is the old one with the entry of the pair edited (`Edited`): it counts
  the uses taken so far on top of those from before.
-/

import Switchboard.Proofs.Registry.Twin
import Switchboard.Proofs.World.Binding
import Switchboard.Proofs.World.Entries

namespace Switchboard

variable {α : Type}

def Usage.plus (u : Usage α) (k : Nat) : Usage α := { u with count := u.count + k }

namespace World

variable {w : World α} {g : Registry α} {b : BundleId} {ref : Reference} {x : Registration α} {u : Usage α} {o : α}
  {answers : Answer α → Prop} {asked : List (Question α)} {replied : List (Reply α)} {n : Nat}
  {before now : Option (Usage α)}

/-- Of the ledger, the entry of the pair went from `before` to `now`, and nothing else changed; this was
    asked and replied meanwhile. -/
def Edited (w : World α) (g : Registry α) (b : BundleId) (id : Nat) (before now : Option (Usage α))
    (asked : List (Question α)) (replied : List (Reply α)) (p : Outcome α) : Prop :=
  ∃ l : Ledger α, l.Sound ∧ g.ledger.Edit l b id before now ∧ Rebooked w g l asked replied p

def askedOf (x : Registration α) (q : Question α) : List (Question α) := if x.source.isFactory then [q] else []

/-! ## Further uses -/

/-- Uses of a pair that has an object cached. -/
theorem leads_gets (ho : Offers w g ref x) (hdone : answers .done) (hcached : u.object = some o)
    (hroom : u.count + n ≤ Ledger.countLimit) : Leads answers 0 (List.replicate n (Operation.get b ref))
      (Edited w g b ref.id before (some u) asked replied)
      (Edited w g b ref.id before (some (u.plus n)) asked (replied ++ List.replicate n (Reply.object (some o)))) := by
  refine Leads.imp (leads_replicate (P := fun k => Edited w g b ref.id before (some (u.plus k)) asked
    (replied ++ List.replicate k (.object (some o)))) n fun k hk => leads_one fun p hp => ?_) (fun p hp => ?_)
    fun p hp => hp
  · obtain ⟨l, hl, he, hbooked⟩ := hp
    obtain ⟨held, hworld⟩ := hbooked.world
    obtain ⟨l', hl', he', hget⟩ := ho.get_cached hdone hl he.usage?_after hcached
    rw [hworld]
    refine (hget held).imp fun out hout => ⟨l', hl', ?_, ?_⟩
    · have hplus : Ledger.Usage.addUse (u.plus k) = u.plus (k + 1) := by
        have hmin : min (u.count + k + 1) Ledger.countLimit = u.count + (k + 1) := by omega
        exact congrArg (fun c => { u with count := c }) hmin
      rw [← hplus]
      exact he.trans he'
    · have hnext := hbooked.next hout
      rwa [List.append_nil, List.append_assoc, ← List.replicate_succ'] at hnext
  · rwa [List.replicate_zero, List.append_nil]

/-- All but the uses from before are given back. -/
theorem leads_ungets (ho : Offers w g ref x) (hpos : 0 < u.count) :
    Leads answers 0 (List.replicate n (Operation.unget b ref))
      (Edited w g b ref.id before (some (u.plus n)) asked replied)
      (Edited w g b ref.id before (some u) asked (replied ++ List.replicate n (Reply.flag true))) := by
  refine Leads.imp (leads_replicate (P := fun k => Edited w g b ref.id before (some (u.plus (n - k))) asked
    (replied ++ List.replicate k (.flag true))) n fun k hk => leads_one fun p hp => ?_) (fun p hp => ?_) fun p hp => ?_
  · obtain ⟨l, hl, he, hbooked⟩ := hp
    obtain ⟨held, hworld⟩ := hbooked.world
    have hmany : 1 < (u.plus (n - k)).count := by
      show 1 < u.count + (n - k)
      omega
    obtain ⟨l', hl', he', hunget⟩ := ho.unget_many hl he.usage?_after hmany held
    rw [hworld]
    refine hunget.imp fun out hout => ⟨l', hl', ?_, ?_⟩
    · have hless : { u.plus (n - k) with count := (u.plus (n - k)).count - 1 } = u.plus (n - (k + 1)) := by
        have hcount : u.count + (n - k) - 1 = u.count + (n - (k + 1)) := by omega
        exact congrArg (fun c => { u with count := c }) hcount
      rw [← hless]
      exact he.trans he'
    · have hnext := hbooked.next hout
      rwa [List.append_nil, List.append_assoc, ← List.replicate_succ'] at hnext
  · rwa [List.replicate_zero, List.append_nil]
  · rwa [Nat.sub_self] at hp

/-! ## The first use and the last -/

theorem leads_first (ho : Offers w g ref x) (hdone : answers .done) (hmakes : ∃ o, answers (.supplied (some o)))
    (hnever : ¬ answers (.supplied none)) : Leads answers 0 [Operation.get b ref] (Edited w g b ref.id none none asked replied)
      fun p => ∃ o, Edited w g b ref.id none (some ⟨ref, 1, some o⟩) (asked ++ askedOf x (.supply ref.target b))
        (replied ++ [Reply.object (some o)]) p := by
  refine leads_one fun p hp => ?_
  obtain ⟨l, hl, he, hbooked⟩ := hp
  obtain ⟨held, hworld⟩ := hbooked.world
  rw [hworld]
  refine (ho.get_first hdone hmakes hnever hl he.usage?_after held).imp fun out hout => ?_
  obtain ⟨o, l', hl', he', hbooked'⟩ := hout
  exact ⟨o, l', hl', he'.of_same he.same, hbooked.next hbooked'⟩

theorem leads_last (ho : Offers w g ref x) (hdone : answers .done) (hlast : u.count = 1) (hcached : u.object = some o) :
    Leads answers 0 [Operation.unget b ref] (Edited w g b ref.id before (some u) asked replied)
      (Edited w g b ref.id before none (asked ++ askedOf x (.takeBack ref.target b o)) (replied ++ [Reply.flag true])) := by
  refine leads_one fun p hp => ?_
  obtain ⟨l, hl, he, hbooked⟩ := hp
  obtain ⟨held, hworld⟩ := hbooked.world
  obtain ⟨l', hl', he', hunget⟩ := ho.unget_last hdone hl he.usage?_after (Nat.le_of_eq hlast) hcached held
  rw [hworld]
  exact hunget.imp fun out hout => ⟨l', hl', he.trans he', hbooked.next hout⟩

/-! ## There and back -/

structure RoundTrip (w : World α) (g : Registry α) (b : BundleId) (ref : Reference) (x : Registration α) (n : Nat)
    (out : Outcome α) : Prop where
  /-- All succeed and the ledger is as before; if the pair was unused, a factory makes one object and gets
      it back, and else it is asked nothing. -/
  restored : ∃ (o : α) (l : Ledger α), g.ledger.Twin l ∧
    Rebooked w g l (if (g.ledger.usage? b ref.id).isSome then [] else
        askedOf x (.supply ref.target b) ++ askedOf x (.takeBack ref.target b o))
      (List.replicate n (Reply.object (some o)) ++ List.replicate n (Reply.flag true)) out
  /-- If it was unused, nothing is left to give back. -/
  spent : g.ledger.usage? b ref.id = none → out.1.Ensures (· ≠ .supplied none) 0 (.unget b ref) (fun _ => True)
    fun last => ∃ l : Ledger α, g.ledger.Twin l ∧ Rebooked w g l [] [.flag false] last

theorem edited_self (hl : g.ledger.Sound) (hsole : w.registries = #[g]) (b : BundleId) (id : Nat) :
    Edited w g b id (g.ledger.usage? b id) (g.ledger.usage? b id) [] [] (w, []) :=
  ⟨g.ledger, hl, .refl hl b id, ⟨w.held, (withLedger_self hsole).symm⟩, rfl, rfl⟩

theorem roundTrip_of_used (ho : Offers w g ref x) (hl : g.ledger.Sound) (hu : g.ledger.usage? b ref.id = some u)
    (hpos : 0 < u.count) (hcached : u.object = some o) (hroom : u.count + n ≤ Ledger.countLimit) :
    EnsuresAll (· ≠ .supplied none) 0 w
      (List.replicate n (Operation.get b ref) ++ List.replicate n (Operation.unget b ref))
      (RoundTrip w g b ref x n) := by
  have hstart := edited_self hl ho.sole b ref.id
  rw [hu] at hstart
  have htrip : Leads (· ≠ .supplied none) 0
      (List.replicate n (Operation.get b ref) ++ List.replicate n (Operation.unget b ref))
      (Edited w g b ref.id (some u) (some u) [] []) (Edited w g b ref.id (some u) (some u) []
        ([] ++ List.replicate n (Reply.object (some o)) ++ List.replicate n (Reply.flag true))) :=
    (leads_gets ho (by simp) hcached hroom).append (leads_ungets ho hpos)
  refine (htrip _ hstart).imp fun out hout => ⟨?_, fun hnone => ?_⟩
  · obtain ⟨l, hl', he, hbooked⟩ := hout
    refine ⟨o, l, ⟨hl, hl', he.same⟩, ?_⟩
    rw [hu]
    exact hbooked
  · cases hu.symm.trans hnone

theorem roundTrip_of_unused [Nonempty α] (ho : Offers w g ref x) (hl : g.ledger.Sound)
    (hu : g.ledger.usage? b ref.id = none) (hroom : 1 + n ≤ Ledger.countLimit) :
    EnsuresAll (· ≠ .supplied none) 0 w
      (List.replicate (n + 1) (Operation.get b ref) ++ List.replicate (n + 1) (Operation.unget b ref))
      (RoundTrip w g b ref x (n + 1)) := by
  have hstart := edited_self hl ho.sole b ref.id
  rw [hu] at hstart
  have hmakes : ∃ o : α, Answer.supplied (some o) ≠ .supplied none := by
    obtain ⟨o⟩ := ‹Nonempty α›
    exact ⟨o, by simp⟩
  -- The first and the last call stand out; in between, one use is never given back.
  have hmost : ∀ o, Leads (· ≠ .supplied none) 0
      (List.replicate n (Operation.get b ref) ++ List.replicate n (Operation.unget b ref) ++ [Operation.unget b ref])
      (Edited w g b ref.id none (some ⟨ref, 1, some o⟩) ([] ++ askedOf x (.supply ref.target b)) ([] ++ [Reply.object (some o)]))
      (Edited w g b ref.id none none
        ([] ++ askedOf x (.supply ref.target b) ++ askedOf x (.takeBack ref.target b o))
        ([] ++ [Reply.object (some o)] ++ List.replicate n (Reply.object (some o)) ++ List.replicate n (Reply.flag true) ++
          [Reply.flag true])) := by
    intro o
    exact Leads.append (Leads.append (leads_gets ho (by simp) rfl hroom) (leads_ungets ho Nat.one_pos))
      (leads_last ho (by simp) rfl rfl)
  have htrip : Leads (· ≠ .supplied none) 0
      ([Operation.get b ref] ++
        (List.replicate n (Operation.get b ref) ++ List.replicate n (Operation.unget b ref) ++ [Operation.unget b ref]))
      (Edited w g b ref.id none none [] []) fun p => ∃ o, Edited w g b ref.id none none
        ([] ++ askedOf x (.supply ref.target b) ++ askedOf x (.takeBack ref.target b o))
        ([] ++ [Reply.object (some o)] ++ List.replicate n (Reply.object (some o)) ++ List.replicate n (Reply.flag true) ++
          [Reply.flag true]) p := by
    refine (leads_first ho (by simp) hmakes (by simp)).append fun p hp => ?_
    obtain ⟨o, hp⟩ := hp
    exact (hmost o p hp).imp fun out hout => ⟨o, hout⟩
  have hcalls : List.replicate (n + 1) (Operation.get (α := α) b ref) ++ List.replicate (n + 1) (Operation.unget b ref) =
      [Operation.get b ref] ++
        (List.replicate n (Operation.get b ref) ++ List.replicate n (Operation.unget b ref) ++ [Operation.unget b ref]) := by
    rw [List.replicate_succ, List.replicate_succ']
    simp
  rw [hcalls]
  refine (htrip _ hstart).imp fun out hout => ?_
  obtain ⟨o, l, hl', he, hbooked⟩ := hout
  have ht : g.ledger.Twin l := ⟨hl, hl', he.same⟩
  refine ⟨⟨o, l, ht, ?_⟩, fun _ => ?_⟩
  · rw [hu, List.replicate_succ, List.replicate_succ' (n := n)]
    simpa using hbooked
  · obtain ⟨held, hworld⟩ := hbooked.world
    rw [show out.1 = _ from hworld]
    exact (ho.unget_none he.usage?_after held).imp fun last hlast => ⟨l, ht, hlast⟩

/-- With no `get` in flight and a factory that calls nothing and does make objects, giving back as many
    uses as were taken restores the ledger. -/
theorem unget_undoes_get [Nonempty α] {c : Config} {hasSink : Bool} {ms : List (Move α)} {os : List (Occurrence α)}
    (hrun : (start [(c, hasSink)]).run ms = some (w, os)) (hturn : w.isClientsTurn = true)
    (hidle : ∀ f ∈ w.stack, f.getting? = none) (hknown : w.knows ref = true) (hx : w.behind? ref = some x)
    (hsole : w.registries = #[g]) (hn : 1 ≤ n) (hroom : (g.ledger.count? b ref.id).getD 0 + n ≤ Ledger.countLimit) :
    EnsuresAll (· ≠ .supplied none) 0 w
      (List.replicate n (Operation.get b ref) ++ List.replicate n (Operation.unget b ref))
      (RoundTrip w g b ref x n) := by
  obtain ⟨k, hst, hentries⟩ := entries_run ms _ hrun
  obtain rfl := hst.eq hsole
  have ho := hst.offers hturn hknown hx
  cases hu : g.ledger.usage? b ref.id with
  | none =>
    obtain ⟨m, rfl⟩ : ∃ m, n = m + 1 := ⟨n - 1, by omega⟩
    simp only [Ledger.count?, hu, Option.map_none, Option.getD_none] at hroom
    exact roundTrip_of_unused ho hst.sound.ledger hu (by omega)
  | some u =>
    simp only [Ledger.count?, hu, Option.map_some, Option.getD_some] at hroom
    obtain ⟨hpos, hawaited⟩ := hentries b _ u hu
    cases hobject : u.object with
    | none =>
      obtain ⟨f, hf, hget⟩ := (hawaited hobject).in_flight hpos
      exact absurd (hidle f hf) hget
    | some o => exact roundTrip_of_used ho hst.sound.ledger hu hpos hobject hroom

/-- A bundle uses one service of two, and a factory's service is not used yet. -/
def besideAnother : List (Move Nat) :=
  [.call 0 (.register 7 "a" .factory none), .call 0 (.register 7 "b" (.object 5) none), .call 0 (.findOne "a"),
   .call 0 (.findOne "b"), .call 0 (.get 9 ⟨2, 2, 1⟩), .tick, .tick]

theorem unget_undoes_get_besideAnother : ∃ w os g x,
    (start [(Config.standard, false)]).run besideAnother = some (w, os) ∧ w.registries = #[g] ∧
    w.behind? ⟨1, 1, 0⟩ = some x ∧ x.source.isFactory = true ∧ g.ledger.count? 9 1 = none ∧
    EnsuresAll (· ≠ .supplied none) 0 w (List.replicate 3 (.get 9 ⟨1, 1, 0⟩) ++ List.replicate 3 (.unget 9 ⟨1, 1, 0⟩))
      (RoundTrip w g 9 ⟨1, 1, 0⟩ x 3) := by
  have hany : ((start [(Config.standard, false)]).run besideAnother).any (fun out => out.1.stack.isEmpty &&
      out.1.knows ⟨1, 1, 0⟩ && (out.1.behind? ⟨1, 1, 0⟩).any (·.source.isFactory) &&
      out.1.registries.all fun g => g.ledger.count? 9 1 == none) = true := by decide +kernel
  obtain ⟨⟨w, os⟩, hrun, hw⟩ := (Option.any_eq_true _ _).mp hany
  simp only [Bool.and_eq_true, List.isEmpty_iff] at hw
  obtain ⟨⟨⟨hrest, hknown⟩, hbehind⟩, hunused⟩ := hw
  obtain ⟨x, hx, hfactory⟩ := (Option.any_eq_true _ _).mp hbehind
  obtain ⟨g, hst⟩ := standing_run hrun
  have hsole : w.registries = #[g] := hst.sole
  have hnone : g.ledger.count? 9 1 = none := by
    rw [hsole] at hunused
    simpa using hunused
  have hidle : ∀ f ∈ w.stack, f.getting? = none := by simp [hrest]
  have hturn : w.isClientsTurn = true := by simp [isClientsTurn, hrest]
  refine ⟨w, os, g, x, hrun, hsole, hx, hfactory, hnone, ?_⟩
  refine unget_undoes_get hrun hturn hidle hknown hx hsole (by decide) ?_
  rw [hnone]
  decide

end World

end Switchboard
