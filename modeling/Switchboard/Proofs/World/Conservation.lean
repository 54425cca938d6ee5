/-
  Switchboard.Proofs.World.Conservation — where a factory's objects are.

  An object a factory makes for a bundle is in the hands of the `get` that asked for it, or
  cached in an entry of the bundle's, or on the list of an operation that gives objects back, or
  was handed back to the factory: in one of these places, as often as it was made
  (`objects_conserved`). Objects stand for productions, of which several may be equal, so the
  places are multisets.

  A step takes objects from one place to another and changes none but those of its registration
  and its bundle (`step_conserves`). That they arrive at their own factory rests on two facts of
  `Standing`: the entry a `get` comes back to was made for its own reference, and what is in
  the ledger is valid, hence alive, so that no `unget` loses an object.
-/

import Mathlib.Algebra.BigOperators.Group.List.Basic
import Mathlib.Algebra.Order.Group.Multiset
import Mathlib.Tactic.Abel
import Switchboard.Proofs.World.Standing

namespace Switchboard

variable {α : Type} {h t : Handle} {b c : BundleId}

/-! ## The places -/

def objectsOf (b : BundleId) (due : List (BundleId × α)) : Multiset α :=
  ((due.filter fun p => p.1 == b).map (·.2) : List α)

def Occurrence.made (h : Handle) (b : BundleId) : Occurrence α → Multiset α
  | answered (.supply h' b') (.supplied o) => if h' = h ∧ b' = b then (o.toList : Multiset α) else 0
  | _ => 0

def Occurrence.handedBack (h : Handle) (b : BundleId) : Occurrence α → Multiset α
  | asked (.takeBack h' b' o) => if h' = h ∧ b' = b then {o} else 0
  | _ => 0

/-- What a `get` has from the factory and has not decided on. -/
def Frame.inHand (h : Handle) (b : BundleId) : Frame α → Multiset α
  | settling _ h' b' _ true o => if h' = h ∧ b' = b then (o.toList : Multiset α) else 0
  | _ => 0

/-- What is on its way back behind the object that is being handed over. -/
def Frame.pending (h : Handle) (b : BundleId) : Frame α → Multiset α
  | releasing _ h' due _ => if h' = h then objectsOf b due.tail else 0
  | _ => 0

def Usage.cachedFor (h : Handle) (u : Usage α) : Multiset α :=
  if u.reference.target = h then (u.object.toList : Multiset α) else 0

def Ledger.cached (l : Ledger α) (h : Handle) (b : BundleId) : Multiset α := ((l.usages b).map (·.cachedFor h)).sum

def made (os : List (Occurrence α)) (h : Handle) (b : BundleId) : Multiset α := (os.map (·.made h b)).sum

def handedBack (os : List (Occurrence α)) (h : Handle) (b : BundleId) : Multiset α := (os.map (·.handedBack h b)).sum

namespace World

def inHand (w : World α) (h : Handle) (b : BundleId) : Multiset α := (w.stack.map (·.inHand h b)).sum

def pending (w : World α) (h : Handle) (b : BundleId) : Multiset α := (w.stack.map (·.pending h b)).sum

def cached (w : World α) (h : Handle) (b : BundleId) : Multiset α := (w.registries.toList.map (·.ledger.cached h b)).sum

end World

/-! ## How the places are read -/

theorem made_append (os os' : List (Occurrence α)) : made (os ++ os') h b = made os h b + made os' h b := by
  rw [made, List.map_append, List.sum_append]
  rfl

theorem handedBack_append (os os' : List (Occurrence α)) :
    handedBack (os ++ os') h b = handedBack os h b + handedBack os' h b := by
  rw [handedBack, List.map_append, List.sum_append]
  rfl

theorem made_gist (os : List (Occurrence α)) : made (gist os) h b = made os h b := by
  induction os with
  | nil => rfl
  | cons o os ih =>
    rw [← List.singleton_append, gist_append, made_append, made_append, ih]
    refine congrArg (· + made os h b) ?_
    cases o with
    | asked q => cases q <;> rfl
    | answered q a => cases q <;> rfl
    | _ => rfl

theorem handedBack_gist (os : List (Occurrence α)) : handedBack (gist os) h b = handedBack os h b := by
  induction os with
  | nil => rfl
  | cons o os ih =>
    rw [← List.singleton_append, gist_append, handedBack_append, handedBack_append, ih]
    refine congrArg (· + handedBack os h b) ?_
    cases o with
    | asked q => cases q <;> rfl
    | answered q a => cases q <;> rfl
    | _ => rfl

theorem objectsOf_cons (p : BundleId × α) (due : List (BundleId × α)) :
    objectsOf b (p :: due) = (if p.1 = b then {p.2} else 0) + objectsOf b due := by
  by_cases hb : p.1 = b
  · rw [if_pos hb, objectsOf, List.filter_cons_of_pos (by simpa using hb)]
    rfl
  · rw [if_neg hb, objectsOf, List.filter_cons_of_neg (by simpa using hb), zero_add]
    rfl

/-- All objects that one bundle is to lose are that bundle's. -/
theorem objectsOf_map (due : List α) : objectsOf b (due.map (c, ·)) = if c = b then (due : Multiset α) else 0 := by
  induction due with
  | nil => simp [objectsOf]
  | cons o due ih =>
    rw [List.map_cons, objectsOf_cons, ih]
    by_cases hb : c = b
    · simp only [hb, if_true]
      rfl
    · simp [hb]

namespace Frame

def holds (h : Handle) (b : BundleId) (f : Frame α) : Multiset α := f.inHand h b + f.pending h b

def bears (h : Handle) (b : BundleId) (f : Frame α) : Multiset α := f.holds h b + handedBack f.asks h b

theorem holds_of_aside {f : Frame α} (hf : f.isAside) : f.holds h b = 0 := by
  cases f with
  | releasing r h' due e =>
    cases due with
    | nil => simp [holds, inHand, pending, objectsOf]
    | cons p due => cases hf
  | settling => cases hf
  | _ => rfl

theorem bears_releasing (r : Nat) (h' : Handle) (due : List (BundleId × α)) (e : Ending α) :
    (releasing r h' due e).bears h b = if h' = h then objectsOf b due else 0 := by
  cases due with
  | nil => simp [bears, holds, inHand, pending, asks, question?, handedBack, objectsOf]
  | cons p due =>
    rw [objectsOf_cons]
    by_cases hh : h' = h
    · simp [bears, holds, inHand, pending, asks, question?, handedBack, Occurrence.handedBack, hh, add_comm]
    · simp [bears, holds, inHand, pending, asks, question?, handedBack, Occurrence.handedBack, hh]

theorem bears_getting {f : Frame α} (hf : f.getting?.isSome) : f.bears h b = f.inHand h b := by
  cases f with
  | resolving r h' b' ref => simp [bears, holds, inHand, pending, asks, question?, handedBack, Occurrence.handedBack]
  | settling r h' b' ref fresh o => simp [bears, holds, pending, asks, question?, handedBack]
  | _ => cases hf

theorem made_asks (f : Frame α) : made f.asks h b = 0 := by
  unfold asks
  cases f.question? with
  | none => rfl
  | some q => cases q <;> rfl

end Frame

/-! ## What the ledger gives up and takes in -/

namespace Ledger

variable {l l' : Ledger α} {id : Nat}

theorem cached_edit {u v : Option (Usage α)} (he : l.Edit l' c id u v) (h : Handle) (b : BundleId) :
    l'.cached h b + (if b = c then (u.map (Usage.cachedFor h)).getD 0 else 0) =
      l.cached h b + (if b = c then (v.map (Usage.cachedFor h)).getD 0 else 0) :=
  he.sum (fun _ => Usage.cachedFor h) b

/-- An edit that leaves reference and object of an entry alone. -/
theorem cached_edit_same {u v : Usage α} (he : l.Edit l' c id (some u) (some v)) (href : v.reference = u.reference)
    (hobject : v.object = u.object) (h : Handle) (b : BundleId) : l'.cached h b = l.cached h b := by
  have hsum := cached_edit he h b
  have hsame : Usage.cachedFor h v = Usage.cachedFor h u := by rw [Usage.cachedFor, Usage.cachedFor, href, hobject]
  simp only [Option.map_some, Option.getD_some, hsame] at hsum
  exact add_right_cancel hsum

theorem cached_acquire (hl : l.Sound) (b' : BundleId) (ref : Reference) (h : Handle) (b : BundleId) :
    (l.acquire b' ref).2.cached h b = l.cached h b := by
  have he := edit_acquire hl b' ref
  cases hu : l.usage? b' ref.id with
  | some u =>
    rw [hu] at he
    exact cached_edit_same he rfl rfl h b
  | none =>
    rw [hu] at he
    have hsum := cached_edit he h b
    simpa [usedBy, Usage.cachedFor] using hsum

theorem sum_cachedFor (h : Handle) (us : List (Usage α)) :
    (us.map (·.cachedFor h)).sum = (((us.filter (·.reference.target == h)).filterMap (·.object) : List α) : Multiset α) := by
  induction us with
  | nil => rfl
  | cons u us ih =>
    rw [List.map_cons, List.sum_cons, ih, Usage.cachedFor]
    by_cases ht : u.reference.target = h
    · rw [if_pos ht, List.filter_cons_of_pos (by simpa using ht), List.filterMap_cons]
      cases u.object with
      | none => simp
      | some o => simp
    · rw [if_neg ht, List.filter_cons_of_neg (by simpa using ht), zero_add]

/-- A drain empties the entries of its registration and leaves the others alone. -/
theorem cached_drain (hl : l.Sound) (t h : Handle) (b : BundleId) :
    (l.drain t).ledger.cached h b = if t = h then 0 else l.cached h b := by
  rw [cached, cached, usages_drain hl, sum_cachedFor, sum_cachedFor, List.filter_filter]
  by_cases ht : t = h
  · subst ht
    rw [if_pos rfl, List.filter_eq_nil_iff.mpr (by simp)]
    rfl
  · rw [if_neg ht]
    refine congrArg (fun us : List (Usage α) => ((us.filterMap (·.object) : List α) : Multiset α)) ?_
    refine List.filter_congr fun u _ => ?_
    by_cases hu : u.reference.target = h
    · simp [hu, Ne.symm ht]
    · simp [hu]

/-- It gives back what they had cached. -/
theorem objectsOf_drain (hl : l.Sound) (t : Handle) (b : BundleId) : objectsOf b (l.drain t).objects = l.cached t b := by
  rw [objectsOf, objects_drain hl, cached, sum_cachedFor]

end Ledger

/-- Whatever a `get` decides, it puts the object in its hands and the one cached for its pair into
    the ledger or on the list of those to give back. -/
theorem Settles.conserves {l : Ledger α} {ref : Reference} {valid fresh : Bool} {o : Option α} {e : World.Settlement α}
    (hs : Settles l c ref.id valid fresh o e) (href : ∀ u, l.usage? c ref.id = some u → u.reference = ref)
    (h : Handle) (b : BundleId) :
    (if ref.target = h ∧ c = b then ((o.filter fun _ => fresh).toList : Multiset α) else 0) + l.cached h b =
      (if ref.target = h ∧ c = b then (e.due : Multiset α) else 0) + e.ledger.cached h b := by
  cases hs with
  | cached _ hfresh => simp [hfresh]
  | missing _ hfresh ho =>
    subst hfresh ho
    rfl
  | existing _ hfresh ho =>
    subst hfresh ho
    rfl
  | lost => rfl
  | @kept x u l' _ hfresh ho hc _ he =>
    have hsum := Ledger.cached_edit he h b
    have hu := href u he.usage?_before
    simp only [Option.map_some, Option.getD_some, Usage.cachedFor, hu, hc, eq_comm (a := b)] at hsum
    by_cases hp : ref.target = h ∧ c = b
    · subst hfresh ho
      obtain ⟨rfl, rfl⟩ := hp
      have hkept : l'.cached ref.target c + 0 = l.cached ref.target c + {x} := by simpa using hsum
      rw [if_pos ⟨rfl, rfl⟩, if_pos ⟨rfl, rfl⟩]
      show {x} + l.cached ref.target c = 0 + l'.cached ref.target c
      rw [add_comm, ← hkept, add_comm]
    · have hnot : ¬ (c = b ∧ ref.target = h) := fun hp' => hp hp'.symm
      simpa [hp, ← ite_and, hnot] using hsum.symm
  | @spent u l' _ _ _ _ he => rw [Ledger.cached_edit_same he rfl rfl]
  | @dropped u l' _ _ _ he =>
    have hsum := Ledger.cached_edit he h b
    have hu := href u he.usage?_before
    simp only [Option.map_some, Option.getD_some, Option.map_none, Option.getD_none, Usage.cachedFor, hu,
      eq_comm (a := b)] at hsum
    by_cases hp : ref.target = h ∧ c = b
    · simp only [hp, and_self, if_true, ite_self, add_zero] at hsum ⊢
      rw [← hsum, ← Multiset.coe_add]
      abel
    · have hnot : ¬ (c = b ∧ ref.target = h) := fun hp' => hp hp'.symm
      simpa [hp, ← ite_and, hnot] using hsum.symm

/-! ## One step -/

namespace World

variable {w v : World α} {g g' : Registry α} {top : Option (Frame α)} {out : Outcome α}

def holdings (w : World α) (h : Handle) (b : BundleId) : Multiset α := (w.stack.map (·.holds h b)).sum

/-- From the innermost operation and the ledger to what a step puts on the stack and leaves in the
    ledger: what is made comes in, what is handed over goes out. -/
theorem conserves_of {p : List (Frame α)} (hstack : out.1.stack = p ++ v.stack)
    (hkeep : made out.2 h b + (top.toList.map (·.holds h b)).sum + g.ledger.cached h b =
      (p.map (·.holds h b)).sum + handedBack out.2 h b + g'.ledger.cached h b) :
    made out.2 h b + ((v.onto top).holdings h b + g.ledger.cached h b) =
      out.1.holdings h b + g'.ledger.cached h b + handedBack out.2 h b := by
  have hbefore : (v.onto top).holdings h b = (top.toList.map (·.holds h b)).sum + v.holdings h b := by
    rw [holdings, onto, List.map_append, List.sum_append]
    rfl
  have hafter : out.1.holdings h b = (p.map (·.holds h b)).sum + v.holdings h b := by
    rw [holdings, hstack, List.map_append, List.sum_append]
    rfl
  calc made out.2 h b + ((v.onto top).holdings h b + g.ledger.cached h b)
      = made out.2 h b + (top.toList.map (·.holds h b)).sum + g.ledger.cached h b + v.holdings h b := by
        rw [hbefore]
        abel
    _ = out.1.holdings h b + g'.ledger.cached h b + handedBack out.2 h b := by
        rw [hkeep, hafter]
        abel

theorem made_of_gist {os l : List (Occurrence α)} {o : Occurrence α} (hos : gist os = o :: gist l)
    (ho : o.made h b = 0) : made os h b = made l h b := by
  rw [← made_gist, hos, made, List.map_cons, List.sum_cons, ho, zero_add]
  exact made_gist l

theorem handedBack_of_gist {os l : List (Occurrence α)} {o : Occurrence α} (hos : gist os = o :: gist l)
    (ho : o.handedBack h b = 0) : handedBack os h b = handedBack l h b := by
  rw [← handedBack_gist, hos, handedBack, List.map_cons, List.sum_cons, ho, zero_add]
  exact handedBack_gist l

theorem made_of_quiet {os : List (Occurrence α)} (hos : gist os = []) : made os h b = 0 := by
  rw [← made_gist, hos]
  rfl

theorem handedBack_of_quiet {os : List (Occurrence α)} (hos : gist os = []) : handedBack os h b = 0 := by
  rw [← handedBack_gist, hos]
  rfl

theorem sum_holds_aside {o : Option (Frame α)} (ho : ∀ k ∈ o, k.isAside) : (o.toList.map (·.holds h b)).sum = 0 := by
  cases o with
  | none => rfl
  | some k => simp [Frame.holds_of_aside (ho k rfl)]

/-- What is due to a factory reaches the list of an operation that gives it back. -/
theorem bears_due (hfactory : ∀ x, v.registration? h = some x → x.source.isFactory = true)
    (ht : (v.registration? t).isSome) (r : Nat) (due : List (BundleId × α)) (e : Ending α) :
    (Frame.releasing r t (v.dueTo t due) e).bears h b = if t = h then objectsOf b due else 0 := by
  rw [Frame.bears_releasing]
  by_cases hth : t = h
  · subst hth
    obtain ⟨x, hx⟩ := Option.isSome_iff_exists.mp ht
    have hfac : v.isFactory t = true := by
      rw [isFactory, hx]
      exact hfactory x hx
    rw [dueTo, if_pos hfac]
  · rw [if_neg hth, if_neg hth]

/-- An object that an `unget` finds goes back, for its factory's registration is alive. -/
theorem bears_back (hfactory : ∀ x, v.registration? h = some x → x.source.isFactory = true)
    (ht : (v.registration? t).isSome) (halive : v.isAlive t = true) (r : Nat) (object : Option α) :
    ((((object.filter fun _ => v.isAlive t && v.isFactory t).map fun o => Frame.releasing r t [(c, o)] .ungot).map
      (Frame.bears h b)).getD 0) = if t = h ∧ c = b then (object.toList : Multiset α) else 0 := by
  have hone : ∀ o : α, (Frame.releasing r t [(c, o)] .ungot).bears h b = if t = h ∧ c = b then {o} else 0 := by
    intro o
    rw [Frame.bears_releasing, objectsOf_cons]
    simp only [objectsOf, List.filter_nil, List.map_nil, Multiset.coe_nil, add_zero, ite_and]
  cases object with
  | none => simp
  | some o =>
    by_cases hth : t = h
    · obtain ⟨x, hx⟩ := Option.isSome_iff_exists.mp ht
      have hfac : v.isFactory t = true := by
        rw [isFactory, hx]
        exact hfactory x (hth ▸ hx)
      rw [halive, hfac]
      exact hone o
    · cases v.isAlive t && v.isFactory t with
      | true => exact hone o
      | false => simp [hth]

theorem bears_option (back : Option (Frame α)) :
    (back.toList.map (·.holds h b)).sum + handedBack (back.toList.flatMap Frame.asks) h b =
      (back.map (Frame.bears h b)).getD 0 := by
  cases back with
  | none => rfl
  | some k => simp [Frame.bears]

theorem made_back (back : Option (Frame α)) : made (back.toList.flatMap Frame.asks) h b = 0 := by
  cases back with
  | none => rfl
  | some k => simp [Frame.made_asks]

theorem holds_settling (r : Nat) (t : Handle) (c : BundleId) (ref : Reference) (fresh : Bool) (o : Option α) :
    (Frame.settling r t c ref fresh o).holds h b =
      if t = h ∧ c = b then ((o.filter fun _ => fresh).toList : Multiset α) else 0 := by
  cases fresh with
  | true =>
    have hfilter : (o.filter fun _ => true) = o := by cases o <;> rfl
    rw [hfilter]
    exact add_zero _
  | false =>
    have hfilter : (o.filter fun _ => false) = none := by cases o <;> rfl
    rw [hfilter]
    simp [Frame.holds, Frame.inHand, Frame.pending]

/-- A `get` of a factory's registration starts with nothing in its hands. -/
theorem bears_fetch {r : Nat} {ref : Reference} {cached : Option α} {source : Source α}
    (hsource : ref.target = h → source.isFactory = true) : (fetch r c ref cached source).bears h b = 0 := by
  rw [Frame.bears_getting (by rw [getting?_fetch]; rfl)]
  unfold fetch
  split
  · rfl
  · by_cases ht : ref.target = h
    · cases hsource ht
    · simp [Frame.inHand, ht]
  · rfl

theorem holds_releasing_cons (r : Nat) (t : Handle) (p : BundleId × α) (due : List (BundleId × α)) (e : Ending α) :
    (Frame.releasing r t (p :: due) e).holds h b = (Frame.releasing r t due e).bears h b := by
  rw [Frame.bears_releasing]
  exact zero_add _

theorem step_conserves (hst : Standing (v.onto top) g) (hs : Step v top out) (hst' : Standing out.1 g')
    (hfactory : ∀ x, v.registration? h = some x → x.source.isFactory = true) (b : BundleId) :
    made out.2 h b + ((v.onto top).holdings h b + g.ledger.cached h b) =
      out.1.holdings h b + g'.ledger.cached h b + handedBack out.2 h b := by
  have hsole : v.registries = #[g] := hst.sole
  have hloop : ∀ {o : Option (Frame α)}, (∀ k ∈ o, k.isLoop) → (o.toList.map (·.holds h b)).sum = 0 := fun ho =>
    sum_holds_aside fun k hk => Frame.aside_of_loop (ho k hk)
  cases hs with
  | idle htop hi =>
    obtain ⟨k, hk, hm⟩ := sole_alike hsole hi.alike
    obtain rfl := sole_unique hk hst'.sole
    obtain ⟨f, hf, haside⟩ := hi.stack
    have hledger : g'.ledger = g.ledger := by rw [hm.eq]
    refine conserves_of hf ?_
    rw [made_of_quiet hi.quiet, handedBack_of_quiet hi.quiet, sum_holds_aside htop,
      sum_holds_aside fun k hk => (haside k hk).1, hledger]
  | @publish r g c name source p held f os hg hf hos =>
    obtain ⟨rfl, rfl⟩ := sole_get hsole hg
    obtain rfl := sole_eq hsole hst'.sole
    refine conserves_of rfl ?_
    have haside : ∀ k ∈ f, k.isAside := fun k hk => by rw [hf k hk]; rfl
    rw [made_of_quiet hos, handedBack_of_quiet hos, sum_holds_aside haside]
    rfl
  | @retire top f r k t x os htop hf hg hx hindexed hactive hos =>
    obtain ⟨rfl, rfl⟩ := sole_get hsole hg
    obtain rfl := sole_eq hsole hst'.sole
    refine conserves_of (p := _ :: _) rfl ?_
    have hleaf : (if k.hasSink then Frame.withdrawing 0 t else .draining 0 t : Frame α).holds h b = 0 := by
      split <;> rfl
    rw [made_of_gist (l := []) hos rfl, handedBack_of_gist (l := []) hos rfl, hloop htop, List.map_cons,
      List.sum_cons, hleaf, hloop fun k hk => (hf k hk).1]
    rfl
  | notified hos =>
    obtain rfl := sole_unique hsole hst'.sole
    refine conserves_of (p := [_]) rfl ?_
    rw [made_of_quiet hos, handedBack_of_quiet hos]
    rfl
  | @drain r k t os f hg hf hos =>
    obtain ⟨rfl, rfl⟩ := sole_get hsole hg
    obtain rfl := sole_eq hsole hst'.sole
    have hreg : (v.registration? t).isSome := isSome_of_isValid (isValid_iff.mpr (Or.inr hst.phase_draining))
    refine conserves_of (p := [f]) rfl ?_
    have hbears := bears_due (b := b) hfactory hreg 0 (k.ledger.drain t).objects .withdrawn
    rw [← hf] at hbears
    rw [made_of_gist hos rfl, handedBack_of_gist hos rfl, Frame.made_asks, List.map_singleton, List.sum_singleton,
      ← Frame.bears, hbears, Ledger.cached_drain hst.sound.ledger, Ledger.objectsOf_drain hst.sound.ledger]
    -- What was cached for the drained registration is now due.
    by_cases hth : t = h
    · rw [if_pos hth, if_pos hth, hth]
      show 0 + 0 + _ = _
      abel
    · rw [if_neg hth, if_neg hth]
      rfl
  | @acquire r k c ref x os f hg hknown hx hf hos =>
    obtain ⟨rfl, rfl⟩ := sole_get hsole hg
    obtain rfl := sole_eq hsole hst'.sole
    refine conserves_of (p := [f]) rfl ?_
    -- Only a direct object could be in hand so early, and `h` has a factory.
    have hbears : f.bears h b = 0 := by
      rw [hf, bears_fetch]
      rintro rfl
      exact hfactory x (behind?_eq_some.mp hx).2
    rw [made_of_gist hos rfl, handedBack_of_gist hos rfl, Frame.made_asks, List.map_singleton, List.sum_singleton,
      ← Frame.bears, hbears, Ledger.cached_acquire hst.sound.ledger]
    rfl
  | @supplied r t c ref os o hos =>
    obtain rfl := sole_unique hsole hst'.sole
    refine conserves_of (p := [_]) rfl ?_
    have hfilter : (o.filter fun _ => true) = o := by cases o <;> rfl
    have hmade : made os h b = if t = h ∧ c = b then (o.toList : Multiset α) else 0 := by
      rw [← made_gist, hos]
      exact add_zero _
    rw [handedBack_of_gist (l := []) hos rfl, hmade, List.map_singleton, List.sum_singleton, holds_settling, hfilter]
    rfl
  | @settle r k t c ref fresh o os e f hg he hf hos =>
    obtain ⟨rfl, rfl⟩ := sole_get hsole hg
    obtain rfl := sole_eq hsole hst'.sole
    obtain ⟨rfl, hreg⟩ := hst.getting _ (List.mem_cons_self ..) _ _ _ rfl
    have hsettles := settles_of_eq hst.sound.ledger he
    have hknown : k.knows ref = true := hst.refs _ (List.mem_cons_self ..) ref (List.mem_singleton.mpr rfl)
    have hkeep := hsettles.conserves (fun u hu => hst.sound.reference_eq hknown hu) h b
    refine conserves_of (p := [f]) rfl ?_
    have hbears := bears_due (b := b) hfactory hreg 0 (e.due.map (c, ·)) (.got c ref e.object)
    rw [← hf, objectsOf_map, ← ite_and] at hbears
    rw [made_of_gist hos rfl, handedBack_of_gist hos rfl, Frame.made_asks, List.map_singleton, List.sum_singleton,
      ← Frame.bears, hbears, zero_add, Option.toList_some, List.map_singleton, List.sum_singleton, holds_settling]
    exact hkeep
  | decrement htop hf hg hknown hrel hos =>
    obtain ⟨rfl, rfl⟩ := sole_get hsole hg
    obtain rfl := sole_eq hsole hst'.sole
    obtain ⟨u, -, -, -, -, he⟩ := Ledger.release_decremented hst.sound.ledger hrel
    refine conserves_of rfl ?_
    rw [made_of_gist (l := []) hos rfl, handedBack_of_gist (l := []) hos rfl, hloop htop,
      hloop fun k hk => (hf k hk).1, Ledger.cached_edit_same he rfl rfl]
    rfl
  | @flush top f r k c ref cached ledger os back htop hf hg hknown hrel hback hos =>
    obtain ⟨rfl, rfl⟩ := sole_get hsole hg
    obtain rfl := sole_eq hsole hst'.sole
    obtain ⟨u, -, rfl, -, he⟩ := Ledger.release_flushed hst.sound.ledger hrel
    have href : u.reference = ref := hst.sound.reference_eq (hst.knows_of_release hknown) he.usage?_before
    have hvalid : v.isValid ref.target = true := href ▸ hst.valid_before he
    have halive := hst.isAlive htop hvalid
    have hbears := bears_back (b := b) (c := c) hfactory (isSome_of_isValid hvalid) halive 0 u.object
    rw [← hback] at hbears
    -- What the entry cached goes to the frame that hands it back.
    have hsum := Ledger.cached_edit he h b
    refine conserves_of (p := back.toList ++ f.toList) (List.append_assoc ..).symm ?_
    rw [made_of_gist hos rfl, handedBack_of_gist hos rfl, made_back, hloop htop, List.map_append, List.sum_append,
      hloop fun k hk => (hf k hk).1]
    simp only [add_zero, zero_add]
    rw [bears_option, hbears]
    simp only [Option.map_some, Option.getD_some, Option.map_none, Option.getD_none, ite_self, add_zero, Usage.cachedFor,
      href, eq_comm (a := b)] at hsum
    rw [← hsum, add_comm]
    by_cases ht : ref.target = h <;> simp [ht]
  | @handed r t p due e os hos =>
    obtain rfl := sole_unique hsole hst'.sole
    refine conserves_of (p := [_]) rfl ?_
    rw [← made_gist, ← handedBack_gist, hos, made_gist, handedBack_gist, Frame.made_asks, List.map_singleton,
      List.sum_singleton, ← Frame.bears, Option.toList_some, List.map_singleton, List.sum_singleton,
      holds_releasing_cons, zero_add]

/-- No step both makes an object and hands one over. -/
theorem step_one_way (hs : Step v top out) (h : Handle) (b : BundleId) :
    made out.2 h b = 0 ∨ handedBack out.2 h b = 0 := by
  cases hs with
  | idle _ hi => exact Or.inl (made_of_quiet hi.quiet)
  | publish _ _ _ _ _ _ _ hos => exact Or.inl (made_of_quiet hos)
  | retire _ _ _ _ _ _ hos => exact Or.inl (made_of_gist (l := []) hos rfl)
  | notified hos => exact Or.inl (made_of_quiet hos)
  | drain f _ _ hos => exact Or.inl ((made_of_gist hos rfl).trans f.made_asks)
  | acquire f _ _ _ _ hos => exact Or.inl ((made_of_gist hos rfl).trans f.made_asks)
  | supplied o hos => exact Or.inr (handedBack_of_gist (l := []) hos rfl)
  | settle e f _ _ _ hos => exact Or.inl ((made_of_gist hos rfl).trans f.made_asks)
  | decrement _ _ _ _ _ hos => exact Or.inl (made_of_gist (l := []) hos rfl)
  | flush back _ _ _ _ _ _ hos => exact Or.inl ((made_of_gist hos rfl).trans (made_back back))
  | handed hos =>
    left
    rw [← made_gist, hos, made_gist]
    exact Frame.made_asks _

/-! ## Every run -/

/-- What is in the world and what was handed back is what was made, and never more than what had
    been made by then was handed back. -/
def Conserved (w : World α) (g : Registry α) (os : List (Occurrence α)) (h : Handle) (b : BundleId) : Prop :=
  made os h b = w.holdings h b + g.ledger.cached h b + handedBack os h b ∧
    ∀ l, l <+: os → handedBack l h b ≤ made l h b

theorem Conserved.step {os : List (Occurrence α)} (hc : Conserved (v.onto top) g os h b) (hst : Standing (v.onto top) g)
    (hs : Step v top out) (hst' : Standing out.1 g')
    (hfactory : ∀ x, v.registration? h = some x → x.source.isFactory = true) :
    Conserved out.1 g' (os ++ out.2) h b := by
  obtain ⟨hkeep, hcut⟩ := hc
  have hnow := step_conserves hst hs hst' hfactory b
  have hsum : made (os ++ out.2) h b = out.1.holdings h b + g'.ledger.cached h b + handedBack (os ++ out.2) h b := by
    calc made (os ++ out.2) h b
        = made out.2 h b + ((v.onto top).holdings h b + g.ledger.cached h b) + handedBack os h b := by
          rw [made_append, hkeep]
          abel
      _ = out.1.holdings h b + g'.ledger.cached h b + handedBack (os ++ out.2) h b := by
          rw [hnow, handedBack_append]
          abel
  refine ⟨hsum, fun l hl => ?_⟩
  rcases List.prefix_or_prefix_of_prefix hl (List.prefix_append os out.2) with hl | ⟨m, rfl⟩
  · exact hcut l hl
  · -- The cut is within this step, which makes nothing or hands nothing over.
    obtain ⟨m', hm'⟩ := (List.prefix_append_right_inj os).mp hl
    rw [made_append, handedBack_append]
    rcases step_one_way hs h b with hnone | hnone
    · have hmade : made m h b = 0 := by
        rw [← hm', made_append] at hnone
        exact Multiset.le_zero.mp (hnone ▸ Multiset.le_add_right _ _)
      have hall : handedBack (os ++ out.2) h b ≤ made (os ++ out.2) h b := by
        rw [hsum]
        exact Multiset.le_add_left _ _
      rw [made_append, hnone, handedBack_append, ← hm', handedBack_append, ← add_assoc] at hall
      rw [hmade]
      exact (Multiset.le_add_right _ _).trans hall
    · have hback : handedBack m h b = 0 := by
        rw [← hm', handedBack_append] at hnone
        exact Multiset.le_zero.mp (hnone ▸ Multiset.le_add_right _ _)
      rw [hback, add_zero]
      exact (hcut os (List.prefix_refl os)).trans (Multiset.le_add_right _ _)

theorem holdings_eq (w : World α) (h : Handle) (b : BundleId) : w.holdings h b = w.inHand h b + w.pending h b := by
  rw [holdings, inHand, pending, ← List.sum_map_add]
  rfl

theorem cached_sole (hs : w.registries = #[g]) (h : Handle) (b : BundleId) : w.cached h b = g.ledger.cached h b := by
  rw [cached, hs]
  exact add_zero _

theorem factory_before (hs : Step v top out) (hfactory : ∀ x, out.1.registration? h = some x → x.source.isFactory = true)
    {x : Registration α} (hx : v.registration? h = some x) : x.source.isFactory = true := by
  obtain ⟨y, hy, horigin⟩ := origin_step hs hx
  have hsource : y.source = x.source := (congrArg Registration.source horigin :)
  rw [← hsource]
  exact hfactory y hy

theorem conserved_run {c : Config} {hasSink : Bool} {ms : List (Move α)} (hrun : (start [(c, hasSink)]).run ms = some out) :
    ∃ g, Standing out.1 g ∧ ∀ h, (∀ x, out.1.registration? h = some x → x.source.isFactory = true) →
      ∀ b, Conserved out.1 g out.2 h b := by
  refine run_induction (P := fun w os => ∃ g, Standing w g ∧
    ∀ h, (∀ x, w.registration? h = some x → x.source.isFactory = true) → ∀ b, Conserved w g os h b) ?_ ms _ [] out ?_ hrun
  · rintro w os m out ⟨g, hst, hc⟩ hplay
    obtain ⟨g', hst'⟩ := standing_play hst hplay
    obtain ⟨v, top, rfl, -, hs⟩ := play_step hplay
    refine ⟨g', hst', fun h hfactory b => ?_⟩
    have hbefore : ∀ x, v.registration? h = some x → x.source.isFactory = true := fun x hx => factory_before hs hfactory hx
    exact (hc h hbefore b).step hst hs hst' hbefore
  · refine ⟨_, standing_start c hasSink, fun h _ b => ⟨?_, fun l hl => ?_⟩⟩
    · have hempty : (Registry.ofConfig c hasSink : Registry α).ledger.usages b = [] := Ledger.usages_withCapacity ..
      rw [Ledger.cached, hempty]
      rfl
    · rw [List.prefix_nil.mp hl]
      exact le_rfl

/-- What the factory of `h` made for `b` is in the hands of a `get`, in an entry of `b`'s for a
    reference to `h`, on the list of an operation that gives objects back, or was handed back.
    At no moment was more handed back than had been made. While nothing is in flight, it is
    cached or was handed back. -/
theorem objects_conserved {c : Config} {hasSink : Bool} {ms : List (Move α)}
    (hrun : (start [(c, hasSink)]).run ms = some out) {h : Handle} (hfactory : out.1.isFactory h = true) (b : BundleId) :
    made out.2 h b = out.1.inHand h b + out.1.cached h b + out.1.pending h b + handedBack out.2 h b ∧
    (∀ os, os <+: out.2 → handedBack os h b ≤ made os h b) ∧
    (out.1.stack = [] → made out.2 h b = out.1.cached h b + handedBack out.2 h b) := by
  obtain ⟨g, hst, hc⟩ := conserved_run hrun
  have hsource : ∀ x, out.1.registration? h = some x → x.source.isFactory = true := by
    intro x hx
    rw [isFactory, hx] at hfactory
    exact hfactory
  obtain ⟨hsum, hcut⟩ := hc h hsource b
  rw [holdings_eq, ← cached_sole hst.sole] at hsum
  refine ⟨?_, hcut, fun hidle => ?_⟩
  · rw [hsum]
    abel
  · rw [hsum, inHand, pending, hidle]
    simp

/-- While a factory makes an object for a `get`, a second `get` of the pair is served and caches
    its own; the first one's object is redundant then and handed back. -/
def redundantGet : List (Move Nat) :=
  [.call 0 (.register 7 "a" .factory none), .call 0 (.findOne "a"), .call 0 (.get 9 ⟨1, 1, 0⟩), .call 0 (.get 9 ⟨1, 1, 0⟩),
   .answer (.supplied (some 5)), .tick, .tick, .answer (.supplied (some 6)), .tick]

theorem objects_conserved_redundantGet : ∃ out, (start [(Config.standard, false)]).run redundantGet = some out ∧
    out.1.isFactory 0 = true ∧
    made out.2 0 9 = out.1.inHand 0 9 + out.1.cached 0 9 + out.1.pending 0 9 + handedBack out.2 0 9 ∧
    (∀ os, os <+: out.2 → handedBack os 0 9 ≤ made os 0 9) ∧
    (out.1.stack = [] → made out.2 0 9 = out.1.cached 0 9 + handedBack out.2 0 9) := by
  have hany : ((start [(Config.standard, false)]).run redundantGet).any (·.1.isFactory 0) = true := by decide +kernel
  obtain ⟨out, hrun, hfactory⟩ := (Option.any_eq_true _ _).mp hany
  exact ⟨out, hrun, hfactory, objects_conserved hrun hfactory 9⟩

end World

end Switchboard
