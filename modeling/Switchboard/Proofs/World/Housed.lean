/-
  Switchboard.Proofs.World.Housed — worlds of one registry.

  Phases tell what is active and what is valid, and moves that only look things up leave them
  alone. Where there is one registry, a step goes from it to one registry again (`Housed`): the
  registry stays in order, and every reference an operation works on was handed out by it and
  stays known (`housed_step`).
-/

import Mathlib.Tactic.Common
import Switchboard.Proofs.World.Step
import Switchboard.Proofs.World.Use

namespace Switchboard

variable {α : Type}

namespace World

variable {w w' v : World α} {g g' k : Registry α} {top f : Option (Frame α)} {out : Outcome α} {h t : Handle} {r : Nat}

/-! ## Phases -/

theorem phase?_of_some {x : Registration α} (hx : w.registration? h = some x) : w.phase? h = some x.phase := by
  rw [phase?, hx]
  rfl

theorem isActive_iff : w.isActive h = true ↔ w.phase? h = some .active := by simp [isActive]

theorem isValid_iff : w.isValid h = true ↔ w.phase? h = some .active ∨ w.phase? h = some .unregistering := by
  unfold isValid
  split <;> simp_all

theorem isValid_eq (hp : w'.phase? h = w.phase? h) : w'.isValid h = w.isValid h := by
  unfold isValid
  rw [hp]

theorem isSome_of_isValid (hv : w.isValid h = true) : (w.registration? h).isSome := by
  rcases isValid_iff.mp hv with hp | hp
  · rw [phase?, Option.map_eq_some_iff] at hp
    obtain ⟨x, hx, -⟩ := hp
    rw [hx]
    rfl
  · rw [phase?, Option.map_eq_some_iff] at hp
    obtain ⟨x, hx, -⟩ := hp
    rw [hx]
    rfl

theorem isValid_of_registered (hx : (w.registration? h).isSome) (hlive : w.phase? h ≠ some .invalid) :
    w.isValid h = true := by
  obtain ⟨x, hx⟩ := Option.isSome_iff_exists.mp hx
  rw [isValid_iff]
  rw [phase?_of_some hx] at hlive ⊢
  cases hp : x.phase with
  | active => exact Or.inl rfl
  | unregistering => exact Or.inr rfl
  | invalid => exact absurd (by rw [hp]) hlive

theorem behind?_eq_some {ref : Reference} {x : Registration α} :
    w.behind? ref = some x ↔ w.isValid ref.target = true ∧ w.registration? ref.target = some x := by
  unfold behind?
  split
  case isTrue hv => simp [hv]
  case isFalse hv => simp [hv]

theorem registration?_setPhase (w : World α) (h : Handle) (p : Phase) (t : Handle) :
    (w.setPhase h p).registration? t =
      if t = h then (w.registration? t).map (fun x => { x with phase := p }) else w.registration? t := by
  simp only [registration?, setPhase, updateRegistration, Array.getElem?_modify, eq_comm (a := h)]

theorem phase?_setPhase (w : World α) (h : Handle) (p : Phase) (t : Handle) :
    (w.setPhase h p).phase? t = if t = h then (w.phase? t).map (fun _ => p) else w.phase? t := by
  rw [phase?, registration?_setPhase]
  split
  · rw [phase?, Option.map_map, Option.map_map]
    rfl
  · rfl

theorem phase?_setPhase_of_ne {p : Phase} (ht : t ≠ h) : (w.setPhase h p).phase? t = w.phase? t := by
  rw [phase?_setPhase, if_neg ht]

theorem registration?_enlisted (w : World α) (r : Nat) (g : Registry α) (x : Registration α) (t : Handle) :
    (w.enlisted r g x).registration? t = if t = w.registrations.size then some x else w.registration? t := by
  show (w.registrations.push x)[t]? = _
  rw [Array.getElem?_push]
  rfl

theorem registration?_size (w : World α) : w.registration? w.registrations.size = none := by
  simp [registration?]

theorem Alike.phase? (ha : w.Alike w') (t : Handle) : w'.phase? t = w.phase? t := by
  have hcore := congrArg (Option.map Registration.phase) (ha.registration t)
  rw [Option.map_map, Option.map_map] at hcore
  exact hcore

/-! ## One of several registries -/

/-- Setting a registry shows at that registry only. -/
theorem registry_setRegistry {q : Nat} (hk : (w.setRegistry r g).registries[q]? = some k) :
    q = r ∧ k = g ∨ q ≠ r ∧ w.registries[q]? = some k := by
  rw [setRegistry, Array.getElem?_setIfInBounds] at hk
  split at hk
  case isTrue hq =>
    split at hk
    case isTrue => exact Or.inl ⟨hq.symm, (Option.some.inj hk).symm⟩
    case isFalse => cases hk
  case isFalse hq => exact Or.inr ⟨Ne.symm hq, hk⟩

/-- What a registry was at the start. -/
theorem registry_start {setups : List (Config × Bool)} (hk : (start setups : World α).registries[r]? = some k) :
    ∃ c hasSink, setups[r]? = some (c, hasSink) ∧ k = Registry.ofConfig c hasSink := by
  rw [start, List.getElem?_toArray, List.getElem?_map, Option.map_eq_some_iff] at hk
  obtain ⟨⟨c, hasSink⟩, hr, rfl⟩ := hk
  exact ⟨c, hasSink, hr, rfl⟩

/-! ## The one registry -/

theorem sole_get (hs : w.registries = #[g]) (hg : w.registries[r]? = some k) : r = 0 ∧ k = g := by
  rw [hs] at hg
  obtain ⟨hr, hk⟩ := Array.getElem?_eq_some_iff.mp hg
  have hr' : r = 0 := by simpa using hr
  subst hr'
  exact ⟨rfl, hk.symm⟩

theorem sole_set (hs : w.registries = #[g]) (g' : Registry α) : (w.setRegistry 0 g').registries = #[g'] := by
  rw [setRegistry, hs]
  rfl

theorem sole_unique (hs : w.registries = #[g]) (hk : w.registries = #[k]) : k = g := by
  simpa using hk.symm.trans hs

theorem sole_eq (hs : w.registries = #[g]) (hk : (w.setRegistry 0 k).registries = #[g']) : g' = k :=
  sole_unique (sole_set hs k) hk

theorem sole_alike (hs : w.registries = #[g]) (ha : w.Alike w') : ∃ g', w'.registries = #[g'] ∧ g.Minted g' := by
  obtain ⟨g', hg', hm⟩ := ha.registry 0 g (by rw [hs]; rfl)
  have hsize := ha.size
  rw [hs] at hsize
  refine ⟨g', ?_, hm⟩
  obtain ⟨h0, hget⟩ := Array.getElem?_eq_some_iff.mp hg'
  refine Array.ext (by simpa using hsize) fun i hi _ => ?_
  obtain rfl : i = 0 := by rw [hsize] at hi; simpa using hi
  exact hget

theorem knows_sole (hs : w.registries = #[g]) (ref : Reference) : w.knows ref = g.knows ref := by
  rw [knows, hs]
  simp

structure Housed (w : World α) (g : Registry α) : Prop where
  sole : w.registries = #[g]
  sound : g.Sound
  refs : ∀ k ∈ w.stack, ∀ ref ∈ k.refs, g.knows ref = true

theorem Housed.knows_of_meets (hh : Housed (v.onto top) g) {ref : Reference} (hm : v.meets top ref) :
    g.knows ref = true := by
  rcases hm with ⟨f, hf, href⟩ | ⟨r, k, b, hk, href⟩
  · exact hh.refs f (List.mem_append_left _ (Option.mem_toList.mpr hf)) ref href
  · obtain ⟨rfl, rfl⟩ := sole_get hh.sole hk
    obtain ⟨u, hu, rfl⟩ := List.mem_map.mp href
    exact hh.sound.known b u hu

/-- The registry goes on, and so do the operations below; what is new on the stack works on
    known references. -/
theorem Housed.next (hh : Housed (v.onto top) g) (hs : w'.registries = #[g']) (hsound : g'.Sound)
    (hknows : ∀ ref, g.knows ref = true → g'.knows ref = true) {p : List (Frame α)} (hstack : w'.stack = p ++ v.stack)
    (hfs : ∀ k ∈ p, ∀ ref ∈ k.refs, g.knows ref = true) :
    Housed w' g' ∧ ∀ ref, g.knows ref = true → g'.knows ref = true := by
  refine ⟨⟨hs, hsound, fun k hk ref href => hknows ref ?_⟩, hknows⟩
  rw [hstack] at hk
  rcases List.mem_append.mp hk with hk | hk
  · exact hfs k hk ref href
  · exact hh.refs k (List.mem_append_right _ hk) ref href

theorem fetch_refs (r : Nat) (b : BundleId) (ref : Reference) (cached : Option α) (source : Source α) :
    (fetch r b ref cached source).refs = [ref] := by
  cases cached <;> cases source <;> rfl

theorem Housed.knows_of_under (hh : Housed (v.onto top) g) (hf : v.Under top f) :
    ∀ k ∈ f.toList, ∀ ref ∈ k.refs, g.knows ref = true :=
  fun k hk ref href => hh.knows_of_meets ((hf k (Option.mem_toList.mp hk)).2 ref href)

theorem housed_step (hh : Housed (v.onto top) g) (hs : Step v top out) :
    ∃ g', Housed out.1 g' ∧ ∀ ref, g.knows ref = true → g'.knows ref = true := by
  have hsole : v.registries = #[g] := hh.sole
  cases hs with
  | idle htop h =>
    obtain ⟨g', hg', hm⟩ := sole_alike hsole h.alike
    obtain ⟨f, hf, haside⟩ := h.stack
    refine ⟨g', hh.next hg' (hm.sound hh.sound) (fun ref => hm.knows) hf fun k hk ref href => ?_⟩
    exact hh.knows_of_meets ((haside k (Option.mem_toList.mp hk)).2 ref href)
  | publish b name source p held hg hf =>
    obtain ⟨rfl, rfl⟩ := sole_get hsole hg
    refine ⟨_, hh.next (sole_set hsole _) (hh.sound.enlist ..) (fun ref h => h) rfl fun k hk ref href => ?_⟩
    rw [hf k (Option.mem_toList.mp hk)] at href
    cases href
  | retire htop hf hg hx hindexed hactive =>
    obtain ⟨rfl, rfl⟩ := sole_get hsole hg
    refine ⟨_, hh.next (p := _ :: _) (sole_set hsole _) (hh.sound.unlist ..) (fun ref h => h) rfl fun k hk ref href => ?_⟩
    rcases List.mem_cons.mp hk with rfl | hk
    · split at href <;> cases href
    · exact hh.knows_of_under hf k hk ref href
  | notified =>
    refine ⟨g, hh.next (p := [_]) hsole hh.sound (fun ref h => h) rfl fun k hk ref href => ?_⟩
    obtain rfl := List.mem_singleton.mp hk
    cases href
  | drain f hg hf =>
    obtain ⟨rfl, rfl⟩ := sole_get hsole hg
    refine ⟨_, hh.next (p := [_]) (sole_set hsole _) (hh.sound.drain _) (fun ref h => h) rfl fun k hk ref href => ?_⟩
    obtain rfl := List.mem_singleton.mp hk
    rw [hf] at href
    cases href
  | @acquire r k b ref x os f hg hknown hx hf =>
    obtain ⟨rfl, rfl⟩ := sole_get hsole hg
    rw [knows_sole hsole] at hknown
    have he := Ledger.edit_acquire hh.sound.ledger b ref
    have hsound := hh.sound.edit (hh.sound.ledger.acquire b ref) he fun y hy => by
      cases hu : k.ledger.usage? b ref.id with
      | none =>
        rw [hu] at hy
        obtain rfl := Option.some.inj hy
        exact hknown
      | some u =>
        rw [hu] at hy
        obtain rfl := Option.some.inj hy
        exact hh.sound.known b u (Ledger.mem_of_usage? hu).1
    refine ⟨_, hh.next (p := [_]) (sole_set hsole _) hsound (fun ref h => h) rfl fun k hk q hq => ?_⟩
    obtain rfl := List.mem_singleton.mp hk
    rw [hf, fetch_refs] at hq
    obtain rfl := List.mem_singleton.mp hq
    exact hknown
  | @supplied r h b ref os o =>
    refine ⟨g, hh.next (p := [_]) hsole hh.sound (fun ref h => h) rfl fun k hk q hq => ?_⟩
    obtain rfl := List.mem_singleton.mp hk
    exact hh.refs (.resolving r h b ref) (List.mem_cons_self ..) q hq
  | @settle r k h b ref fresh o os e f hg he hf =>
    obtain ⟨rfl, rfl⟩ := sole_get hsole hg
    have hsettles := settles_of_eq hh.sound.ledger he
    refine ⟨_, hh.next (p := [_]) (sole_set hsole _) (hsettles.sound hh.sound) (fun ref h => h) rfl fun k hk q hq => ?_⟩
    obtain rfl := List.mem_singleton.mp hk
    rw [hf] at hq
    cases hq
  | decrement htop hf hg hknown hrel =>
    obtain ⟨rfl, rfl⟩ := sole_get hsole hg
    obtain ⟨u, -, -, -, hl, he⟩ := Ledger.release_decremented hh.sound.ledger hrel
    have hsound := hh.sound.edit hl he fun y hy => by
      obtain rfl := Option.some.inj hy
      exact hh.sound.known _ u (Ledger.mem_of_usage? he.usage?_before).1
    exact ⟨_, hh.next (sole_set hsole _) hsound (fun ref h => h) rfl (hh.knows_of_under hf)⟩
  | flush k htop hf hg hknown hrel hk =>
    obtain ⟨rfl, rfl⟩ := sole_get hsole hg
    obtain ⟨u, -, -, hl, he⟩ := Ledger.release_flushed hh.sound.ledger hrel
    have hsound := hh.sound.edit hl he fun y hy => by cases hy
    refine ⟨_, hh.next (p := k.toList ++ _) (sole_set hsole _) hsound (fun ref h => h) (List.append_assoc ..).symm
      fun q hq ref href => ?_⟩
    rcases List.mem_append.mp hq with hq | hq
    · rw [Option.mem_toList, hk, Option.map_eq_some_iff] at hq
      obtain ⟨o, -, rfl⟩ := hq
      cases href
    · exact hh.knows_of_under hf q hq ref href
  | handed =>
    refine ⟨g, hh.next (p := [_]) hsole hh.sound (fun ref h => h) rfl fun k hk q hq => ?_⟩
    obtain rfl := List.mem_singleton.mp hk
    cases hq

end World

end Switchboard
