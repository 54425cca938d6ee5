/-
  Switchboard.Proofs.World.Failure — an operation that fails leaves all as it was.

  All failures but one are found out before anything is changed: where an operation other than a
  `get` has an effect, it does not fail any more (`Attempt`). Only a `get` has counted its use by
  the time its factory makes no object, and gives it up again. Counting and giving up cancel out
  (`settlement_undoes`), since the pair has no entry, or one that caches nothing and counts fewer
  uses than there can be; that is so of every entry a `get` finds without an object (`Covered`).

  What is the same afterwards is every registration, every index, every counter, and for every
  bundle the list of its entries with their counts and objects (`Unchanged`).
-/

import Switchboard.Proofs.Registry.Twin
import Switchboard.Proofs.World.Awaiting
import Switchboard.Proofs.World.Binding

namespace Switchboard

variable {α : Type}

def Reply.isSuccess : Reply α → Bool
  | published _ | flag true => true
  | _ => false

namespace Frame

/-- Is it a publication, a change of properties, a withdrawal or a release that had its effect? -/
def isCommitted : Frame α → Bool
  | announcing .. | withdrawing .. | draining .. | releasing _ _ _ .withdrawn | releasing _ _ _ .ungot => true
  | reporting _ _ _ reply => reply.isSuccess
  | _ => false

def isGet : Frame α → Bool
  | resolving .. | settling .. | releasing _ _ _ (.got ..) => true
  | _ => false

end Frame

namespace World

variable {w v : World α} {g : Registry α} {f : Frame α} {s : List (Frame α)} {out : Outcome α} {os : List (Occurrence α)}
  {r : Nat} {b : BundleId} {h : Handle} {ref : Reference} {op : Operation α} {reply : Reply α} {m : Move α}
  {ms before : List (Move α)} {q : Question α}

inductive Fails : Operation α → Reply α → Prop
  | register {b : BundleId} {name : String} {source : Source α} {p : Option Properties} {e : RegistryError} :
      Fails (.register b name source p) (.refused e)
  | notOwner {b : BundleId} {h : Handle} {e : RegistryError} : Fails (.unregister b h) (.refused e)
  | unregister {b : BundleId} {h : Handle} : Fails (.unregister b h) (.flag false)
  | setProperties {h : Handle} {p : Properties} : Fails (.setProperties h p) (.flag false)
  | unget {b : BundleId} {ref : Reference} : Fails (.unget b ref) (.flag false)
  | get {b : BundleId} {ref : Reference} : Fails (.get b ref) (.object none)

/-- Nothing that can be asked for has changed. A ledger may be laid out in another way, and the client
    may hold on to other registrations. -/
structure Unchanged (w w' : World α) : Prop where
  registrations : w'.registrations = w.registrations
  size : w'.registries.size = w.registries.size
  registries : ∀ (r : Nat) (g : Registry α), w.registries[r]? = some g →
    ∃ l : Ledger α, w'.registries[r]? = some { g with ledger := l } ∧ g.ledger.Twin l
  stack : w'.stack = w.stack

theorem Provided.unchanged (hp : Provided w os) (held : List Handle) : Unchanged w { w with held := held } where
  registrations := rfl
  size := rfl
  registries r g hg := ⟨g.ledger, hg, .refl (hp.stocked r g hg).sound⟩
  stack := rfl

theorem Provided.unchanged_set {l : Ledger α} (hp : Provided w os) (hg : w.registries[r]? = some g)
    (hl : g.ledger.Twin l) (held : List Handle) :
    Unchanged w { w.setRegistry r { g with ledger := l } with held := held } where
  registrations := rfl
  size := Array.size_setIfInBounds ..
  registries q k hk := by
    show ∃ l, (w.registries.setIfInBounds r _)[q]? = _ ∧ _
    rw [Array.getElem?_setIfInBounds]
    split
    case isTrue hq =>
      subst hq
      obtain rfl := Option.some.inj (hg.symm.trans hk)
      exact ⟨l, by rw [if_pos (Array.getElem?_eq_some_iff.mp hg).1], hl⟩
    case isFalse => exact ⟨k.ledger, hk, .refl (hp.stocked q k hk).sound⟩
  stack := rfl

/-! ## Operations that fail before they have an effect -/

theorem Fails.not_success (hfails : Fails op reply) : reply.isSuccess = false := by
  cases hfails <;> rfl

inductive Succeeds (w : World α) (out : Outcome α) : Prop
  | now {reply : Reply α} (hstack : out.1.stack = w.stack) (hreply : out.2.getLast? = some (.returned reply))
      (hsuccess : reply.isSuccess = true) : Succeeds w out
  | later {f : Frame α} (hstack : out.1.stack = f :: w.stack) (hf : f.isCommitted = true) : Succeeds w out

/-- What came of a call: it failed, and changed and asked nothing, or it had its effect. -/
inductive Attempt (w : World α) (out : Outcome α) : Prop
  | failed (hworld : out.1 = w) (hasked : questions out.2 = [])
  | succeeds (hs : Succeeds w out)

theorem Succeeds.after (hs : Succeeds w out) (os : List (Occurrence α)) : Succeeds w (after os out) := by
  cases hs with
  | now hstack hreply hsuccess =>
    refine .now hstack ?_ hsuccess
    rw [World.after, List.getLast?_append, hreply]
    rfl
  | later hstack hf => exact .later hstack hf

theorem Attempt.after (ha : Attempt w out) {os : List (Occurrence α)} (hos : questions os = []) :
    Attempt w (after os out) := by
  cases ha with
  | failed hworld hasked =>
    refine .failed hworld ?_
    rw [World.after, questions_append, hos, hasked]
    rfl
  | succeeds hs => exact .succeeds (hs.after os)

theorem attempt_finish (hturn : w.isClientsTurn = true) (hreply : ∀ t, reply ≠ .published t) :
    Attempt w (w.finish reply) := by
  rw [finish_eq hturn hreply]
  exact .failed rfl rfl

theorem succeeds_finish (hturn : w.isClientsTurn = true) (hstack : v.stack = w.stack) (hsuccess : reply.isSuccess = true) :
    Succeeds w (v.finish reply) := by
  have hreturned : (v.finish reply).2.getLast? = some (.returned reply) := by
    rw [← isClientsTurn_eq hstack] at hturn
    unfold finish
    rw [not_loop_of_turn hturn]
    rfl
  exact .now ((stack_finish v reply).trans hstack) hreturned hsuccess

/-! ### What a call comes to -/

theorem attempt_register (hturn : w.isClientsTurn = true) (g : Registry α) (r : Nat) (b : BundleId) (name : String)
    (source : Source α) (p : Option Properties) : Attempt w (w.register r g b name source p) := by
  unfold register
  split
  case isTrue => exact attempt_finish hturn (by simp)
  case isFalse =>
    refine .succeeds (.after ?_ _)
    split
    case isTrue => exact .later rfl rfl
    case isFalse => exact succeeds_finish hturn rfl rfl

theorem attempt_unregister (hturn : w.isClientsTurn = true) (g : Registry α) (r : Nat) (b : BundleId) (h : Handle) :
    Attempt w (w.unregister r g b h) := by
  unfold unregister
  split
  case h_1 => exact attempt_finish hturn (by simp)
  case h_2 =>
    split
    case isFalse => exact attempt_finish hturn (by simp)
    case isTrue =>
      unfold withdraw
      split
      case h_2 => exact (attempt_finish hturn (by simp)).after rfl
      case h_1 w' hw =>
        obtain ⟨x, -, -, -, rfl⟩ := retire?_eq_some hw
        exact .succeeds (.later rfl (by split <;> rfl))

theorem attempt_setProperties (hturn : w.isClientsTurn = true) (g : Registry α) (r : Nat) (h : Handle) (p : Properties) :
    Attempt w (w.setProperties r g h p) := by
  unfold setProperties
  split
  case h_1 => exact attempt_finish hturn (by simp)
  case h_2 =>
    split
    case isFalse => exact attempt_finish hturn (by simp)
    case isTrue =>
      refine .succeeds (.after ?_ _)
      unfold report
      split
      case isTrue => exact .later rfl rfl
      case isFalse => exact succeeds_finish hturn rfl rfl

theorem attempt_unget (hturn : w.isClientsTurn = true) (g : Registry α) (r : Nat) (b : BundleId) (ref : Reference) :
    Attempt w (w.unget r g b ref) := by
  unfold unget
  rcases ungetOne_cases w r g b ref with hone | ⟨left, ledger, -, hone⟩ | ⟨cached, ledger, -, hone⟩
  · rw [hone]
    exact (attempt_finish hturn (by simp)).after rfl
  · rw [hone]
    refine .succeeds (.after ?_ _)
    exact succeeds_finish hturn rfl rfl
  · rw [hone]
    refine .succeeds ?_
    cases cached.filter fun _ => w.isAlive ref.target && w.isFactory ref.target with
    | none =>
      refine .after ?_ _
      exact succeeds_finish hturn rfl rfl
    | some o => exact .after (.later rfl rfl) _

theorem attempt_call (hturn : w.isClientsTurn = true) (hfails : Fails op reply) (hop : ∀ b ref, op ≠ .get b ref)
    (r : Nat) (g : Registry α) : Attempt w (w.call r g op) := by
  cases hfails with
  | register => exact attempt_register hturn ..
  | notOwner => exact attempt_unregister hturn ..
  | unregister => exact attempt_unregister hturn ..
  | setProperties => exact attempt_setProperties hturn ..
  | unget => exact attempt_unget hturn ..
  | get => exact absurd rfl (hop _ _)

/-- What has had its effect goes on to succeed. -/
theorem succeeds_goesOn (hturn : v.isClientsTurn = true) (hf : f.isCommitted = true) (hgo : GoesOn v f out) :
    Succeeds v out := by
  rcases hgo with ⟨q, a, o, -, ho, rfl⟩ | hout
  · refine .after ?_ _
    cases resumes_of ho with
    | announced => exact succeeds_finish hturn rfl rfl
    | reported => exact succeeds_finish hturn rfl hf
    | told => exact .later rfl rfl
    | handed r h d due e =>
      refine .later rfl ?_
      cases e with
      | got => cases hf
      | _ => rfl
    | rejected => cases hf
    | accepted => cases hf
    | supplied => cases hf
  · cases advances_of hout with
    | drains => exact .after (.later rfl rfl) _
    | concludes r h e =>
      cases e with
      | withdrawn =>
        refine .after ?_ _
        exact succeeds_finish hturn rfl rfl
      | ungot =>
        show Succeeds v (v.finish (.flag true))
        exact succeeds_finish hturn rfl rfl
      | got => cases hf
    | settles => cases hf
    | ungets => cases hf
    | unregisters => cases hf

/-- So a call that fails without being a `get` changed nothing and asked nothing. -/
theorem failed_early (hret : Returns w r op ms out reply) (hfails : Fails op reply) (hop : ∀ b ref, op ≠ .get b ref) :
    out.1 = w ∧ questions out.2 = [] := by
  have hturn := hret.isClientsTurn
  have hattempt : ∀ {o}, w.play (.call r op) = some o → Attempt w o := by
    intro o hplay
    obtain ⟨-, -, g, -, rfl⟩ := calls_of_play hplay
    exact (attempt_call hturn hfails hop r g).after rfl
  have hmoves := hret.frame_induction (Q := fun _ f _ => f.isCommitted = true) ?hcall ?habove ?hgoes
  case hcall =>
    intro o hplay hmore
    cases hattempt hplay with
    | failed hworld => exact absurd hmore (by rw [hworld]; exact Nat.lt_irrefl _)
    | succeeds hs =>
      cases hs with
      | now hstack => exact absurd hmore (by rw [hstack]; exact Nat.lt_irrefl _)
      | later hstack hf => exact ⟨_, hstack, hf⟩
  case habove => exact fun o m last p p' f _ hf _ _ => hf
  case hgoes =>
    intro o m last f _ hf _ hgo hmore
    cases succeeds_goesOn (v := { o.1 with stack := w.stack }) hturn hf hgo with
    | now hstack => exact absurd hmore (by rw [hstack]; exact Nat.lt_irrefl _)
    | later hstack hf' => exact ⟨_, hstack, hf'⟩
  have hnot : ∀ {v : World α} {o : Outcome α}, v.stack = w.stack → Succeeds v o → o.1.stack.length = w.stack.length →
      ∀ os : List (Occurrence α), (os ++ o.2).getLast? ≠ some (.returned reply) := by
    intro v o hv hs hback os hlast
    cases hs with
    | now _ hreply hsuccess =>
      rw [List.getLast?_append, hreply] at hlast
      obtain rfl := Occurrence.returned.inj (Option.some.inj hlast)
      cases hfails.not_success.symm.trans hsuccess
    | later hstack =>
      rw [hstack, List.length_cons, hv] at hback
      omega
  rcases hmoves with hplay | ⟨mid, f, last, hstack, hf, hgo, rfl⟩
  · cases hattempt hplay with
    | failed hworld hasked => exact ⟨hworld, hasked⟩
    | succeeds hs => exact absurd hret.reply (hnot rfl hs hret.back [])
  · have hs := succeeds_goesOn (v := { mid.1 with stack := w.stack }) hturn hf hgo
    exact absurd hret.reply (hnot (v := { mid.1 with stack := w.stack }) rfl hs hret.back mid.2)

/-! ## A `get` whose factory calls nothing -/

/-- A `get` in flight stays so until it is over. -/
theorem isGet_goesOn (hf : f.isGet = true) (hgo : GoesOn v f out) :
    (∃ k, out.1.stack = k :: v.stack ∧ k.isGet = true) ∨ out.1.stack = v.stack := by
  cases f with
  | resolving =>
    obtain ⟨x, hx⟩ := goesOn_resolving hgo
    exact Or.inl ⟨_, hx, rfl⟩
  | settling =>
    obtain ⟨k, os, e, -, -, -, hstack, -⟩ := goesOn_settling hgo
    exact Or.inl ⟨_, hstack, rfl⟩
  | releasing r h due e =>
    cases e with
    | got =>
      cases due with
      | nil =>
        rw [goesOn_handed hgo]
        exact Or.inr (stack_conclude v r h _)
      | cons d due => exact Or.inl ⟨_, goesOn_handing hgo, rfl⟩
    | withdrawn => cases hf
    | ungot => cases hf
  | _ => cases hf

/-- Whatever it asks, it asks its factory. -/
theorem toFactory_of_isGet (hf : f.isGet = true) (hq : f.question? = some q) : q.toFactory = true := by
  cases f with
  | resolving =>
    obtain rfl := Option.some.inj hq
    rfl
  | releasing r h due e =>
    cases due with
    | nil => cases hq
    | cons d due =>
      obtain rfl := Option.some.inj hq
      rfl
  | settling => cases hq
  | _ => cases hf

/-- While it is innermost and its factory calls nothing, nothing is called. -/
theorem callsNothing_of_isGet (hstack : w.stack = f :: s) (hf : f.isGet = true)
    (hquiet : ∀ r op, m = .call r op → ∀ q ∈ w.pending?, q.toFactory = false) (hplay : w.play m = some out) :
    m.callsNothing fun _ => True := by
  cases m with
  | call r op =>
    obtain ⟨q, hq, hpending⟩ := question_of_turn (calls_of_play hplay).1 hstack
    cases (toFactory_of_isGet hf hq).symm.trans (hquiet r op rfl q hpending)
  | _ => trivial

/-- While a `get` lasts whose factory calls nothing, nothing is called. -/
theorem get_callsNothing (hret : Returns w r (.get b ref) ms out reply)
    (hquiet : FactoriesQuiet w [.call r (.get b ref)] ms) : ∀ m ∈ ms, m.callsNothing fun _ => True := by
  have hmove : ∀ {l m o last}, l ++ [m] <+: ms → w.run (.call r (.get b ref) :: l) = some o → o.1.play m = some last →
      (∃ f, o.1.stack = f :: w.stack ∧ f.isGet = true) → (∀ m ∈ l, m.callsNothing fun _ => True) →
      ∀ m' ∈ l ++ [m], m'.callsNothing fun _ => True := by
    rintro l m o last hl ho hplay ⟨f, hstack, hf⟩ hbefore m' hm'
    rcases List.mem_append.mp hm' with hm' | hm'
    · exact hbefore m' hm'
    · rw [List.mem_singleton.mp hm']
      refine callsNothing_of_isGet hstack hf (fun r' op' heq => ?_) hplay
      subst heq
      exact hquiet l r' op' hl o ho
  rcases hret.cases with ⟨rfl, -⟩ | ⟨l, m, mid, last, rfl, hlasts, hplay, -⟩
  · exact fun m hm => absurd hm List.not_mem_nil
  · have hinside := hlasts.induction (P := fun k o => k <+: l ++ [m] →
      (∃ f, o.1.stack = f :: w.stack ∧ f.isGet = true) ∧ ∀ m ∈ k, m.callsNothing fun _ => True) ?hcall ?hstep
    case hcall =>
      intro o hplay hmore _
      refine ⟨?_, fun m hm => absurd hm List.not_mem_nil⟩
      obtain ⟨-, -, g, -, rfl⟩ := calls_of_play hplay
      cases hx : w.behind? ref with
      | none =>
        rw [call, get_of_invalid w r g b hx, after, stack_finish] at hmore
        exact absurd hmore (Nat.lt_irrefl _)
      | some x =>
        rw [call, get_of_valid w r g b hx]
        exact ⟨_, rfl, by cases (g.ledger.acquire b ref).1 <;> cases x.source <;> rfl⟩
    case hstep =>
      intro k o m' last' hlasts' hP hplay' hmore hk
      obtain ⟨hat, hbefore⟩ := hP ((List.prefix_append ..).trans hk)
      have hnow := hmove hk hlasts'.run hplay' hat hbefore
      refine ⟨?_, hnow⟩
      obtain ⟨f, hstack, hf⟩ := hat
      have hcallless : ∀ r op, m' ≠ .call r op := by
        rintro r' op' rfl
        exact hnow _ (List.mem_append_right _ (List.mem_singleton_self _))
      rcases play_callless hcallless hplay' with ⟨held, rfl⟩ | ⟨f', fs, hstack', hgo⟩
      · exact ⟨f, hstack, hf⟩
      · obtain ⟨rfl, rfl⟩ := List.cons.inj (hstack'.symm.trans hstack)
        rcases isGet_goesOn hf hgo with hk | hover
        · exact hk
        · exact absurd hmore (by rw [show last'.1.stack = w.stack from hover]; exact Nat.lt_irrefl _)
    obtain ⟨hat, hbefore⟩ := hinside (List.prefix_append ..)
    exact hmove (List.prefix_refl _) hlasts.run hplay hat hbefore

/-! ## A use that is given up again -/

/-- In its own `get`, an object that was found or made for a valid registration is given or another is. -/
theorem settlement_gives {v : World α} {k : Registry α} {u : Usage α} {fresh : Bool} {o : α} (hl : k.ledger.Sound)
    (hvalid : v.isValid h = true) (hu : k.ledger.usage? b ref.id = some u) :
    (v.settlement k h b ref fresh (some o)).object ≠ none := by
  generalize he : v.settlement k h b ref fresh (some o) = e
  have hs := settles_of_eq hl he.symm
  rw [hvalid] at hs
  cases hs with
  | missing _ _ _ hnone => cases hnone.symm.trans hu
  | lost hno => rcases hno with hno | hno <;> cases hno
  | spent hno => rcases hno with hno | hno <;> cases hno
  | dropped hno => rcases hno with hno | hno <;> cases hno
  | _ => simp

/-- The entry of the pair, if there is one, caches nothing and counts uses, and one more can be counted. -/
def CanUndo (l : Ledger α) (b : BundleId) (id : Nat) : Prop :=
  ∀ u, l.usage? b id = some u → u.object = none ∧ 0 < u.count ∧ u.count < Ledger.countLimit

/-- Without an object, a `get` leaves the ledger it found. -/
theorem settlement_undoes {v : World α} {k : Registry α} (hl : g.ledger.Sound)
    (hk : k.ledger = (g.ledger.acquire b ref).2) (hundo : CanUndo g.ledger b ref.id) (hvalid : v.isValid h = true) :
    ∃ l, g.ledger.Twin l ∧ v.settlement k h b ref true none = ⟨none, [], l⟩ := by
  have hmade := Ledger.edit_acquire hl b ref
  rw [← hk] at hmade
  generalize he : v.settlement k h b ref true none = e
  have hs := settles_of_eq (by rw [hk]; exact hl.acquire b ref) he.symm
  rw [hvalid] at hs
  cases hs with
  | cached _ hfresh => cases hfresh
  | missing _ _ ho => cases ho
  | existing _ _ ho => cases ho
  | kept _ _ ho => cases ho
  | lost _ hnone => cases hmade.usage?_after.symm.trans hnone
  | @spent u l _ _ hmany hl' hgiven =>
    refine ⟨l, ⟨hl, hl', ?_⟩, rfl⟩
    obtain rfl := Option.some.inj (hmade.usage?_after.symm.trans hgiven.usage?_before)
    have hboth := hmade.trans hgiven
    cases hu : g.ledger.usage? b ref.id with
    | none =>
      rw [hu] at hmany
      exact absurd hmany (Nat.lt_irrefl 1)
    | some x =>
      obtain ⟨-, -, hroom⟩ := hundo x hu
      have hcount : min (x.count + 1) Ledger.countLimit - 1 = x.count := by omega
      rw [hu] at hboth
      simp only [Ledger.usedBy, Ledger.Usage.addUse, hcount] at hboth
      exact hboth.same
  | @dropped u l _ hlast hl' hgiven =>
    obtain rfl := Option.some.inj (hmade.usage?_after.symm.trans hgiven.usage?_before)
    have hboth := hmade.trans hgiven
    cases hu : g.ledger.usage? b ref.id with
    | none =>
      rw [hu] at hboth
      exact ⟨l, ⟨hl, hl', hboth.same⟩, rfl⟩
    | some x =>
      obtain ⟨-, hpos, hroom⟩ := hundo x hu
      rw [hu] at hlast
      have hcount : min (x.count + 1) Ledger.countLimit ≤ 1 := hlast.resolve_left (by simp)
      omega

/-- An entry without an object counts no more uses than there are operations that may still cache one. -/
theorem Covered.canUndo (hc : Covered w) (hg : w.registries[r]? = some g)
    (hroom : resolvers w.stack r b ref.id < Ledger.countLimit) (hnone : (g.ledger.acquire b ref).1 = none) :
    CanUndo g.ledger b ref.id := by
  intro u hu
  have hfound : (g.ledger.usage? b ref.id).bind (·.object) = none := hnone
  rw [hu] at hfound
  obtain ⟨hpos, hle⟩ := hc r g hg b ref.id u hu
  exact ⟨hfound, hpos, Nat.lt_of_le_of_lt (hle hfound) hroom⟩

theorem registry_set (hg : w.registries[r]? = some g) (k : Registry α) : (w.setRegistry r k).registries[r]? = some k := by
  rw [setRegistry, Array.getElem?_setIfInBounds, if_pos rfl, if_pos (Array.getElem?_eq_some_iff.mp hg).1]

theorem setRegistry_twice (w : World α) (r : Nat) (k k' : Registry α) :
    (w.setRegistry r k).setRegistry r k' = w.setRegistry r k' := by
  simp only [setRegistry, Array.setIfInBounds_setIfInBounds]

def Harmless (w : World α) (out : Outcome α) : Prop :=
  out.2.getLast? = some (.returned (.object none)) →
    Unchanged w out.1 ∧ ∀ q ∈ questions out.2, ∃ h b, q = .supply h b

/-- Where the object is found or made, one is given; otherwise the use is given up again. -/
theorem get_harmless (hp : Provided w os) (hc : Covered w) (hturn : w.isClientsTurn = true) (hknown : w.knows ref = true)
    (hg : w.registries[r]? = some g) (hroom : resolvers w.stack r b ref.id < Ledger.countLimit) :
    w.Ensures (fun _ => True) r (.get b ref) (fun _ => True) (Harmless w) := by
  have hl := (hp.stocked r g hg).sound
  refine ⟨_, play_call hturn hknown hg, ?_⟩
  cases hx : w.behind? ref with
  | none =>
    rw [call, get_of_invalid w r g b hx]
    exact arrives_finish hturn (by simp) fun _ => ⟨hp.unchanged w.held, fun q hq => absurd hq List.not_mem_nil⟩
  | some x =>
    have hvalid : w.isValid ref.target = true := (behind?_eq_some.mp hx).1
    rw [call, get_of_valid w r g b hx, after_after]
    generalize hk : ({ g with ledger := (g.ledger.acquire b ref).2 } : Registry α) = k
    have hledger : k.ledger = (g.ledger.acquire b ref).2 := by rw [← hk]
    have hat := registry_set hg k
    have hentry : k.ledger.usage? b ref.id = some (Ledger.usedBy ref (g.ledger.usage? b ref.id)) := by
      rw [hledger]
      exact (Ledger.edit_acquire hl b ref).usage?_after
    -- With an object to settle on, the call does not fail.
    have hgives : ∀ fresh o held os', Arrives (fun _ => True) w.stack.length (fun _ => True) (Harmless w)
        ({ w.setRegistry r k with stack := .settling r ref.target b ref fresh (some o) :: w.stack, held := held }, os') := by
      intro fresh o held os'
      refine arrives_settle (v := { w.setRegistry r k with held := held }) hat hturn trivial rfl fun held' hlast => ?_
      have hsome : (settlement { w.setRegistry r k with held := held } k ref.target b ref fresh (some o)).object ≠ none :=
        settlement_gives (by rw [hledger]; exact hl.acquire b ref) hvalid hentry
      rw [List.getLast?_append] at hlast
      have hnone := Reply.object.inj (Occurrence.returned.inj (Option.some.inj hlast))
      exact absurd hnone hsome
    cases hcached : (g.ledger.acquire b ref).1 with
    | some o => exact hgives false o w.held _
    | none =>
      cases x.source with
      | object o => exact hgives true o w.held _
      | factory =>
        refine arrives_answer (w := w.setRegistry r k) (q := .supply ref.target b) (Nat.le_refl _) rfl (fun _ => trivial)
          (fun _ => ⟨.supplied none, trivial, rfl⟩) fun held a out _ hout => ?_
        cases a with
        | done => cases hout
        | verdict => cases hout
        | supplied o =>
          obtain rfl := Option.some.inj hout
          cases o with
          | some o => exact hgives true o held _
          | none =>
            -- The factory made none, and the settlement takes the use back.
            obtain ⟨l, htwin, hsettles⟩ := settlement_undoes (v := { w.setRegistry r k with held := held }) hl hledger
              (hc.canUndo hg hroom hcached) hvalid
            refine arrives_settle (v := { w.setRegistry r k with held := held }) hat hturn trivial hsettles.symm
              fun held' _ => ⟨?_, fun q hq => ?_⟩
            · have hundone := hp.unchanged_set hg htwin held'
              subst hk
              rwa [← setRegistry_twice] at hundone
            · rw [List.map_nil, dueTo_nil] at hq
              exact ⟨ref.target, b, List.mem_singleton.mp hq⟩

/-! ## Any failure -/

/-- Wherever it is called, an operation that fails changes nothing that can be observed, tells no event
    and gives no object back, if its factory calls nothing. As counts stop at a limit, it takes that no
    factory called anything before either, or that fewer operations are in flight than that limit. -/
theorem failed_unchanged {setups : List (Config × Bool)} (hrun : (start setups).run before = some (w, os))
    (hret : Returns w r op ms out reply) (hfails : Fails op reply) (hquiet : FactoriesQuiet w [.call r op] ms)
    (hroom : FactoriesQuiet (start setups) [] (before ++ [.call r op]) ∨ w.stack.length < Ledger.countLimit) :
    Unchanged w out.1 ∧ ∀ q ∈ questions out.2, ∃ h b, q = .supply h b := by
  have hp := provided_run hrun
  by_cases hop : ∀ b ref, op ≠ .get b ref
  · obtain ⟨hworld, hasked⟩ := failed_early hret hfails hop
    rw [hworld, hasked]
    exact ⟨hp.unchanged w.held, fun q hq => absurd hq List.not_mem_nil⟩
  · simp only [ne_eq, not_forall, not_not] at hop
    obtain ⟨b, ref, rfl⟩ := hop
    cases hfails
    have hturn := hret.isClientsTurn
    obtain ⟨o, hplay, -⟩ := Option.bind_eq_some_iff.mp hret.run
    obtain ⟨-, hknown, g, hg, -⟩ := calls_of_play hplay
    have hfew : resolvers w.stack r b ref.id < Ledger.countLimit := by
      rcases hroom with hquiet | hroom
      · rw [resolvers_of_quiet hrun hturn hquiet]
        decide
      · exact Nat.lt_of_le_of_lt List.countP_le_length hroom
    have hharmless := (get_harmless hp (covered_run hrun) hturn hknown hg hfew).of_returns hret
      (get_callsNothing hret hquiet)
    exact hharmless hret.reply

def besideFactory : List (Move Nat) :=
  [.call 0 (.register 7 "a" .factory none), .answer .done, .call 0 (.register 7 "b" (.object 5) none), .answer .done,
   .call 0 (.findOne "a"), .call 0 (.findOne "b"), .call 0 (.get 9 ⟨2, 2, 1⟩), .tick, .tick]

def returnsNothing : Occurrence Nat → Bool
  | .returned (.object none) => true
  | _ => false

theorem failed_unchanged_besideFactory : ∃ w os out,
    (start [(Config.standard, true)]).run besideFactory = some (w, os) ∧
    Returns w 0 (.get 9 ⟨1, 1, 0⟩) [.answer (.supplied none), .tick, .tick] out (.object none) ∧
    Unchanged w out.1 ∧ ∀ q ∈ questions out.2, ∃ h b, q = .supply h b := by
  have hany : ((start [(Config.standard, true)]).run besideFactory).any (fun out => out.1.stack.isEmpty &&
      out.1.returns 0 (.get 9 ⟨1, 1, 0⟩) [.answer (.supplied none), .tick, .tick] fun o =>
        o.2.getLast?.any returnsNothing) = true := by
    decide +kernel
  obtain ⟨⟨w, os⟩, hrun, hw⟩ := (Option.any_eq_true _ _).mp hany
  obtain ⟨hrest, hw⟩ := Bool.and_eq_true_iff.mp hw
  obtain ⟨out, hlast, hret⟩ := returns_of_all hw
  obtain ⟨o, ho, hnothing⟩ := (Option.any_eq_true _ _).mp hlast
  have hnone : o = .returned (.object none) := by
    unfold returnsNothing at hnothing
    split at hnothing
    · rfl
    · cases hnothing
  subst hnone
  have hret := hret _ ho
  refine ⟨w, os, out, hrun, hret, failed_unchanged hrun hret .get ?_ (Or.inr ?_)⟩
  · -- The factory is only answered.
    intro l r op hl
    have hmem := hl.subset (List.mem_append_right l (List.mem_singleton_self (Move.call r op)))
    simp at hmem
  · rw [List.isEmpty_iff.mp hrest]
    decide

end World

end Switchboard
