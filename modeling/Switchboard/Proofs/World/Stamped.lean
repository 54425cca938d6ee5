/-
  Switchboard.Proofs.World.Stamped — registrations show the keys that the registry owns.

  Two kinds of moves give a registration its properties: it is published with some, and a call
  replaces them (`Alters`). Both stamp them, so in every reachable world each registration shows its
  name and its id under the keys that the registry owns, whatever was supplied (`stamped_run`).

  Hence a lookup by such a key is the direct one. By `objectClass` it finds what a lookup of the name
  finds, in the same order; by `service.id` it finds the one active registration that has the id,
  if there is one (`reserved_lookups`).
-/

import Switchboard.Proofs.World.Lookup
import Switchboard.Proofs.World.Numbering

namespace Switchboard

def Properties.has (p : Properties) (key value : String) : Bool := p.get? key == some value

variable {α : Type}

namespace World

variable {w w' v : World α} {g : Registry α} {out : Outcome α} {f : Frame α} {m : Move α} {ms : List (Move α)}
  {os : List (Occurrence α)} {r : Nat} {op : Operation α} {h t : Handle} {p : Properties} {x : Registration α}

/-! ## Moves that leave properties alone -/

def properties? (w : World α) (h : Handle) : Option Properties := (w.registration? h).map (·.properties)

@[simp] theorem properties?_setPhase (w : World α) (h : Handle) (p : Phase) (t : Handle) :
    (w.setPhase h p).properties? t = w.properties? t := by
  by_cases ht : t = h <;> simp [properties?, registration?_setPhase, ht, Function.comp_def]

@[simp] theorem properties?_setRegistry (w : World α) (r : Nat) (g : Registry α) (t : Handle) :
    (w.setRegistry r g).properties? t = w.properties? t := rfl

@[simp] theorem properties?_after (os : List (Occurrence α)) (out : Outcome α) (t : Handle) :
    (after os out).1.properties? t = out.1.properties? t := rfl

@[simp] theorem properties?_place (w : World α) (f : Frame α) (t : Handle) :
    (w.place f).1.properties? t = w.properties? t := rfl

@[simp] theorem properties?_release (w : World α) (r : Nat) (h : Handle) (due : List (BundleId × α)) (e : Ending α)
    (t : Handle) : (w.release r h due e).1.properties? t = w.properties? t := rfl

@[simp] theorem properties?_finish (w : World α) (reply : Reply α) (t : Handle) :
    (w.finish reply).1.properties? t = w.properties? t := by
  unfold finish
  split <;> rfl

@[simp] theorem properties?_mint (w : World α) (r : Nat) (h t : Handle) :
    (w.mint r h).2.1.properties? t = w.properties? t := by
  unfold mint
  split <;> rfl

@[simp] theorem properties?_mintAll (r : Nat) (hs : List Handle) (w : World α) (t : Handle) :
    (w.mintAll r hs).2.1.properties? t = w.properties? t := by
  induction hs generalizing w with
  | nil => rfl
  | cons h hs ih => exact (ih (w.mint r h).2.1).trans (properties?_mint w r h t)

@[simp] theorem properties?_returnAll (w : World α) (r : Nat) (hs : List Handle) (t : Handle) :
    (w.returnAll r hs).1.properties? t = w.properties? t := by
  simp [returnAll]

@[simp] theorem properties?_filterNext (w : World α) (r : Nat) (found : List Reference) (cs : List (Handle × Properties))
    (t : Handle) : (w.filterNext r found cs).1.properties? t = w.properties? t := by
  cases cs <;> simp [filterNext]

@[simp] theorem properties?_report (w : World α) (r : Nat) (g : Registry α) (h : Handle) (old : Properties)
    (reply : Reply α) (t : Handle) : (w.report r g h old reply).1.properties? t = w.properties? t := by
  unfold report
  split <;> simp

theorem properties?_retired (hw : w.retire? r g h = some w') (t : Handle) : w'.properties? t = w.properties? t := by
  obtain ⟨x, -, -, -, rfl⟩ := retire?_eq_some hw
  simp

@[simp] theorem properties?_ungetOne (w : World α) (r : Nat) (g : Registry α) (b : BundleId) (ref : Reference) (t : Handle) :
    (w.ungetOne r g b ref).2.2.1.properties? t = w.properties? t := by
  unfold ungetOne
  dsimp only
  split <;> rfl

theorem properties?_unget (w : World α) (r : Nat) (g : Registry α) (b : BundleId) (ref : Reference) (t : Handle) :
    (w.unget r g b ref).1.properties? t = w.properties? t := by
  have hone := properties?_ungetOne w r g b ref t
  unfold unget
  split
  · rename_i heq
    rw [heq] at hone
    simpa using hone
  · rename_i heq
    rw [heq] at hone
    simpa using hone

theorem properties?_ungetNext (w : World α) (r : Nat) (g : Registry α) (b : BundleId) (refs : List Reference) (t : Handle) :
    (w.ungetNext r g b refs).1.properties? t = w.properties? t := by
  unfold ungetNext
  split
  · simp
  · rename_i ref rest
    have hone := properties?_ungetOne w r g b ref t
    split
    · rename_i heq
      rw [heq] at hone
      simpa using hone
    · rename_i heq
      rw [heq] at hone
      simpa using hone

theorem properties?_unregister (w : World α) (r : Nat) (g : Registry α) (b : BundleId) (h t : Handle) :
    (w.unregister r g b h).1.properties? t = w.properties? t := by
  unfold unregister withdraw
  split
  · simp
  · split
    · split
      · rename_i w' hw
        exact properties?_retired hw t
      · simp
    · simp

theorem properties?_unregisterNext (w : World α) (r : Nat) (g : Registry α) (snapshot rest : List Handle) (n : Nat)
    (t : Handle) : (w.unregisterNext r g snapshot n rest).1.properties? t = w.properties? t := by
  unfold unregisterNext
  split
  · simp
  · split
    · rename_i w' hw
      exact properties?_retired hw t
    · simp

theorem properties?_get (w : World α) (r : Nat) (g : Registry α) (b : BundleId) (ref : Reference) (t : Handle) :
    (w.get r g b ref).1.properties? t = w.properties? t := by
  unfold get
  split <;> simp

/-- A call that neither publishes nor replaces leaves them alone. -/
theorem properties?_call (w : World α) (r : Nat) (g : Registry α) (hop : ∀ b name source p, op ≠ .register b name source p)
    (hset : ∀ h p, op ≠ .setProperties h p) (t : Handle) : (w.call r g op).1.properties? t = w.properties? t := by
  unfold call
  cases op with
  | register b name source p => exact absurd rfl (hop b name source p)
  | setProperties h p => exact absurd rfl (hset h p)
  | unregister b h => exact properties?_unregister ..
  | get b ref => exact properties?_get ..
  | unget b ref => exact properties?_unget ..
  | find name filtered =>
    unfold find
    cases filtered <;> simp
  | findOne name =>
    dsimp only
    unfold findOne
    split <;> simp
  | _ => simp

theorem properties?_goesOn (hgo : GoesOn v f out) (t : Handle) : out.1.properties? t = v.properties? t := by
  rcases hgo with ⟨q, a, o, -, ho, rfl⟩ | hout
  · rw [properties?_after]
    cases resumes_of ho with
    | announced => exact properties?_finish ..
    | reported => exact properties?_finish ..
    | told => exact properties?_place ..
    | rejected => exact properties?_filterNext ..
    | accepted r h => exact (properties?_filterNext ..).trans (properties?_mint v r h t)
    | supplied => exact properties?_place ..
    | handed => exact properties?_place ..
  · cases advances_of hout with
    | drains => simp [drain]
    | settles => simp [settle]
    | concludes r h e => cases e <;> simp [conclude]
    | ungets => exact properties?_ungetNext ..
    | unregisters => exact properties?_unregisterNext ..

/-! ## Every move -/

inductive Alters (w : World α) (out : Outcome α) : Prop
  | nothing (hsame : ∀ t, out.1.properties? t = w.properties? t) (hpublished : ∀ r h, .published r h ∉ out.2)
      (hreplaced : ∀ r h old, .replaced r h old ∉ out.2)
  | publishes {r : Nat} {g : Registry α} {b : BundleId} {name : String} {source : Source α} {p : Option Properties}
      (hsaid : ∃ rest, out.2 = .called r (.register b name source p) :: .published r w.registrations.size :: rest)
      (hset : out.1.registrations = w.registrations.push (newcomer r g b name source p))
  | replaces {r : Nat} {h : Handle} {p : Properties} {x : Registration α} (hx : w.registration? h = some x)
      (hsaid : ∃ rest, out.2 = .called r (.setProperties h p) :: .replaced r h x.properties :: rest)
      (hset : ∀ t, out.1.properties? t = if t = h then some (p.stamp x.name x.id) else w.properties? t)

/-- A call that is refused alters nothing. -/
theorem alters_finish (w : World α) (r : Nat) (op : Operation α) (reply : Reply α) :
    Alters w (after [.called r op] (w.finish reply)) := by
  refine .nothing (fun t => by simp) ?_ ?_
  · intro q h
    simp only [after, said_finish, said]
    split <;> simp
  · intro q h old
    simp only [after, said_finish, said]
    split <;> simp

theorem alters_register (w : World α) (r : Nat) (g : Registry α) (b : BundleId) (name : String) (source : Source α)
    (p : Option Properties) : Alters w
      (after [.called r (.register b name source p)] (w.register r g b name source p)) := by
  cases hblank : Text.isBlank name with
  | true =>
    rw [register, if_pos hblank]
    exact alters_finish ..
  | false =>
    refine .publishes (r := r) (b := b) (p := p) ?_ (registrations_register w r g b source p hblank)
    rw [register, if_neg (by simp [hblank])]
    exact ⟨_, rfl⟩

theorem alters_setProperties (w : World α) (r : Nat) (g : Registry α) (h : Handle) (p : Properties) :
    Alters w (after [.called r (.setProperties h p)] (w.setProperties r g h p)) := by
  cases hx : w.registration? h with
  | none =>
    rw [setProperties, hx]
    exact alters_finish ..
  | some x =>
    by_cases hindexed : g.isIndexed x.bundle h = true
    · refine .replaces (r := r) (p := p) hx ?_ fun t => ?_
      · simp only [setProperties, hx, hindexed, if_true]
        exact ⟨_, rfl⟩
      · simp only [setProperties, hx, hindexed, if_true, properties?_after, properties?_report]
        simp only [registration?] at hx
        by_cases ht : t = h
        · subst ht
          simp [properties?, registration?, updateRegistration, Array.getElem?_modify, hx]
        · simp [properties?, registration?, updateRegistration, Array.getElem?_modify, ht, Ne.symm ht]
    · simp only [setProperties, hx, if_neg hindexed]
      exact alters_finish ..

/-- A turn that starts no call to replace properties replaces none. -/
theorem Turn.not_replaced {top : Option (Frame α)} {ns : List (Occurrence α)} {fs : List (Frame α)} (ht : Turn v top ns fs)
    (hop : ∀ r h p, ns.head? ≠ some (.called r (.setProperties h p))) : ∀ r h old, .replaced r h old ∉ ns := by
  intro r h old hmem
  have hasks : ∀ f : Frame α, .replaced r h old ∉ f.asks := by
    intro f hmem
    obtain ⟨q, hq⟩ := mem_asks hmem
    cases hq
  have hannounced : ∀ (hasSink : Bool) (f : Frame α) (reply : Reply α), .replaced r h old ∉ (announced hasSink f reply).1 := by
    intro hasSink f reply
    cases hasSink with
    | true => exact hasks f
    | false => simp [announced]
  cases ht with
  | replaces => exact hop _ _ _ rfl
  | publishes hg he => simp [he, hannounced] at hmem
  | tells hg he => simp [he, hannounced] at hmem
  | withdraws => simp [hasks] at hmem
  | sweeps => simp [hasks] at hmem
  | ends =>
    unfold said at hmem
    split at hmem <;> simp at hmem
  | _ => simp at hmem

theorem alters_of_play (hplay : w.play m = some out) : Alters w out := by
  cases m with
  | call r op =>
    obtain ⟨hturn, -, g, hg, rfl⟩ := calls_of_play hplay
    by_cases hop : ∃ b name source p, op = .register b name source p
    · obtain ⟨b, name, source, p, rfl⟩ := hop
      exact alters_register w r g b name source p
    by_cases hset : ∃ h p, op = .setProperties h p
    · obtain ⟨h, p, rfl⟩ := hset
      exact alters_setProperties w r g h p
    simp only [not_exists] at hop hset
    obtain ⟨p, ht, -⟩ := turnOf_call hturn hg op
    have hnews : ∀ o : Occurrence α, o.isNews = true → o ∈ (after [.called r op] (w.call r g op)).2 →
        o ∈ .called r op :: news (w.call r g op).2 := by
      intro o ho hmem
      simpa [after, mem_news ho] using hmem
    refine .nothing (properties?_call w r g hop hset) (fun q h hmem => ?_) fun q h old hmem => ?_
    · exact ht.not_published (by simp [hop]) q h (hnews _ rfl hmem)
    · exact ht.not_replaced (by simp [hset]) q h old (hnews _ rfl hmem)
  | _ =>
    rcases play_callless (by simp) hplay with ⟨held, rfl⟩ | ⟨f, fs, -, hgo⟩
    · exact .nothing (fun t => rfl) (by simp) (by simp)
    · obtain ⟨p, ht, -⟩ := turnFrom_goesOn hgo
      have hcalled : ∀ r op, (news out.2).head? ≠ some (.called r op) :=
        fun r op heq => ht.not_called (List.mem_of_mem_head? heq)
      refine .nothing (fun t => properties?_goesOn hgo t) (fun q h hmem => ?_) fun q h old hmem => ?_
      · exact ht.not_published (by simp [hcalled]) q h ((mem_news rfl).mpr hmem)
      · exact ht.not_replaced (by simp [hcalled]) q h old ((mem_news rfl).mpr hmem)

/-! ## Every registration is stamped -/

def Stamped (w : World α) : Prop :=
  ∀ h x, w.registration? h = some x →
    x.properties.get? Properties.nameKey = some x.name ∧ x.properties.get? Properties.idKey = some (toString x.id)

theorem stamped_of_stamp (p : Properties) (name : String) (id : ServiceId) :
    (p.stamp name id).get? Properties.nameKey = some name ∧ (p.stamp name id).get? Properties.idKey = some (toString id) :=
  ⟨Properties.get?_nameKey_stamp p name id, Properties.get?_idKey_stamp p name id⟩

/-- What is there and shows what it showed was there before. -/
theorem registered_back (hplay : w.play m = some out) (hsame : out.1.properties? h = w.properties? h)
    {y : Registration α} (hy : out.1.registration? h = some y) :
    ∃ x, w.registration? h = some x ∧ y.origin = x.origin ∧ y.properties = x.properties := by
  rw [properties?, hy, Option.map_some, properties?, eq_comm, Option.map_eq_some_iff] at hsame
  obtain ⟨x, hx, hxy⟩ := hsame
  obtain ⟨y', hy', horigin⟩ := origin_play hplay hx
  obtain rfl := Option.some.inj (hy.symm.trans hy')
  exact ⟨x, hx, horigin, hxy.symm⟩

theorem stamped_play (hst : w.Stamped) (hplay : w.play m = some out) : out.1.Stamped := by
  intro h y hy
  have hkept : out.1.properties? h = w.properties? h → y.properties.get? Properties.nameKey = some y.name ∧
      y.properties.get? Properties.idKey = some (toString y.id) := by
    intro hsame
    obtain ⟨x, hx, horigin, hprop⟩ := registered_back hplay hsame hy
    have hname : y.name = x.name := (congrArg Registration.name horigin :)
    have hid : y.id = x.id := (congrArg Registration.id horigin :)
    rw [hname, hid, hprop]
    exact hst h x hx
  cases alters_of_play hplay with
  | nothing hsame => exact hkept (hsame h)
  | @publishes r g b name source p hsaid hset =>
    rw [registration?, hset, Array.getElem?_push] at hy
    split at hy
    · obtain rfl := Option.some.inj hy
      exact stamped_of_stamp ..
    · exact hst h y hy
  | @replaces r t p x hx hsaid hset =>
    by_cases ht : h = t
    · subst ht
      have hprop := hset h
      rw [if_pos rfl, properties?, hy, Option.map_some, Option.some.injEq] at hprop
      obtain ⟨y', hy', horigin⟩ := origin_play hplay hx
      obtain rfl := Option.some.inj (hy.symm.trans hy')
      have hname : y.name = x.name := (congrArg Registration.name horigin :)
      have hid : y.id = x.id := (congrArg Registration.id horigin :)
      rw [hname, hid, hprop]
      exact stamped_of_stamp ..
    · apply hkept
      rw [hset h, if_neg ht]

/-- In every reachable world all registrations show their names and ids. -/
theorem stamped_run {setups : List (Config × Bool)} (hrun : (start setups).run ms = some out) : out.1.Stamped := by
  refine run_induction (P := fun w _ => w.Stamped) (fun w os m out hst hplay => stamped_play hst hplay) ms _ [] out ?_ hrun
  intro h x hx
  cases hx

/-! ## Lookups by a key -/

/-- These answers are those of a filter that tests one key for one value. -/
def AnswersByKey (key value : String) (es : List (Question α × Answer α)) : Prop :=
  ∀ e ∈ es, ∀ r p, e.1 = .filter r p → e.2 = .verdict (p.has key value)

structure FindsByKey (w : World α) (r : Nat) (key value : String) (hs : List Handle) : Prop where
  completes : ∃ ms out reply, Returns w r (.find none true) ms out reply ∧ (∀ m ∈ ms, ∃ a, m = .answer a) ∧
    AnswersByKey key value (w.exchanges (w.stack.length + 1) (.call r (.find none true) :: ms))
  /-- Whenever the lookup returns, and whatever else happened meanwhile, there is a reference to each of these. -/
  finds : ∀ ms out reply, Returns w r (.find none true) ms out reply →
    AnswersByKey key value (w.exchanges (w.stack.length + 1) (.call r (.find none true) :: ms)) →
    ∃ refs, reply = .references refs ∧ refs.map (·.target) = hs

variable {key value : String} {cs rest : List (Handle × Properties)} {c : Handle × Properties} {found : List Reference}
  {mid : Outcome α}

theorem AnswersByKey.concat {es : List (Question α × Answer α)} (hby : AnswersByKey key value es) (r : Nat) (p : Properties) :
    AnswersByKey key value (es ++ [(.filter r p, .verdict (p.has key value))]) := by
  intro e he q p' hq
  rcases List.mem_append.mp he with he | he
  · exact hby e he q p' hq
  · obtain rfl := List.mem_singleton.mp he
    obtain ⟨-, rfl⟩ := Question.filter.inj hq
    rfl

inductive Asking (w : World α) (r : Nat) (ms : List (Move α)) (out : Outcome α) : List (Handle × Properties) → Prop
  | ended {found : List Reference} (hret : Returns w r (.find none true) ms out (.references found)) : Asking w r ms out []
  | next {c : Handle × Properties} {rest : List (Handle × Properties)} {found : List Reference}
      (hlasts : Lasts w r (.find none true) ms out) (hstack : out.1.stack = .filtering r c.1 c.2 rest found :: w.stack) :
      Asking w r ms out (c :: rest)

theorem asking_call (hturn : w.isClientsTurn = true) (hg : w.registries[r]? = some g) :
    ∃ out, Asking w r [] out (w.candidates g none) := by
  have hplay := play_call hturn (show w.allows (.find none true) = true from rfl) hg
  rw [call, find, if_pos rfl] at hplay
  generalize w.candidates g none = cs at hplay ⊢
  cases cs with
  | nil =>
    rw [filterNext, finish_eq hturn (by simp)] at hplay
    exact ⟨_, .ended (returns_of_play hplay rfl rfl)⟩
  | cons c rest => exact ⟨_, .next (lasts_of_play hplay (Nat.lt_succ_self _)) rfl⟩

/-- The filter answers, which is one more exchange of the lookup. -/
theorem asking_answer (hturn : w.isClientsTurn = true) (ha : Asking w r ms mid (c :: rest)) (b : Bool) :
    ∃ out, Asking w r (ms ++ [.answer (.verdict b)]) out rest ∧
      w.exchanges (w.stack.length + 1) (.call r (.find none true) :: (ms ++ [.answer (.verdict b)])) =
        w.exchanges (w.stack.length + 1) (.call r (.find none true) :: ms) ++ [(.filter r c.2, .verdict b)] := by
  cases ha with
  | @next _ _ found hlasts hstack =>
    have hplay := play_verdict hstack b
    have hanswer : mid.1.exchange (w.stack.length + 1) (.answer (.verdict b)) = [(.filter r c.2, .verdict b)] := by
      rw [exchange, pending?, show mid.1.stack = _ from hstack]
      exact if_pos rfl
    have hexchanges := exchanges_concat (n := w.stack.length + 1) _ hlasts.run hplay
    rw [hanswer] at hexchanges
    have hbelow := stack_judged { mid.1 with stack := w.stack } r c.1 found b
    generalize judged { mid.1 with stack := w.stack } r c.1 found b = j at hplay hbelow
    cases rest with
    | nil =>
      rw [filterNext, finish_eq ((isClientsTurn_eq hbelow).trans hturn) (by simp)] at hplay
      have hret : Returns w r (.find none true) _ _ (.references j.1) :=
        hlasts.ends hplay (congrArg List.length hbelow) (by rw [after, after, ← List.append_assoc, List.getLast?_concat])
      exact ⟨_, .ended hret, hexchanges⟩
    | cons c' rest =>
      have hstack' : (j.2.1.filterNext r j.1 (c' :: rest)).1.stack = .filtering r c'.1 c'.2 rest j.1 :: w.stack :=
        congrArg (_ :: ·) hbelow
      refine ⟨_, .next (hlasts.next hplay ?_) hstack', hexchanges⟩
      show w.stack.length < (j.2.1.filterNext r j.1 (c' :: rest)).1.stack.length
      rw [hstack']
      exact Nat.lt_succ_self _

/-- A filter that only answers is asked of all, and the lookup returns. -/
theorem completes_asking (hturn : w.isClientsTurn = true) (ha : Asking w r ms mid cs)
    (hanswers : ∀ m ∈ ms, ∃ a, m = Move.answer a)
    (hby : AnswersByKey key value (w.exchanges (w.stack.length + 1) (.call r (.find none true) :: ms))) :
    ∃ ms out reply, Returns w r (.find none true) ms out reply ∧ (∀ m ∈ ms, ∃ a, m = .answer a) ∧
      AnswersByKey key value (w.exchanges (w.stack.length + 1) (.call r (.find none true) :: ms)) := by
  induction cs generalizing ms mid with
  | nil =>
    cases ha with
    | ended hret => exact ⟨ms, mid, _, hret, hanswers, hby⟩
  | cons c rest ih =>
    obtain ⟨out, hnext, hexchanges⟩ := asking_answer hturn ha (c.2.has key value)
    apply ih hnext
    · intro m hm
      rcases List.mem_append.mp hm with hm | hm
      · exact hanswers m hm
      · exact ⟨_, List.mem_singleton.mp hm⟩
    · rw [hexchanges]
      exact hby.concat r c.2

theorem picked_eq {done : List Tested} {r : Nat} (hby : AnswersByKey key value (verdictsOn (α := α) r done)) :
    picked done = ((done.map (·.1)).filter (·.2.has key value)).map (·.1) := by
  have hverdict : ∀ t ∈ done, t.2 = t.1.2.has key value := by
    intro t ht
    have hanswer := hby _ (List.mem_map_of_mem ht) r t.1.2 rfl
    exact Answer.verdict.inj hanswer
  rw [picked, List.filter_map, List.map_map]
  congr 1
  exact List.filter_congr hverdict

theorem findsByKey_of (hg : w.registries[r]? = some g) (hturn : w.isClientsTurn = true)
    (hpicked : w.FindsPicked r none (w.candidates g none)) (key value : String) :
    w.FindsByKey r key value (((w.candidates g none).filter (·.2.has key value)).map (·.1)) where
  completes := by
    obtain ⟨out, hasking⟩ := asking_call hturn hg
    refine completes_asking hturn hasking (by simp) ?_
    obtain ⟨o, hplay, -⟩ := hpicked.starts
    simp [exchanges, hplay, exchange, AnswersByKey]
  finds ms out reply hret hby := by
    obtain ⟨done, refs, hdone, hasked, rfl, hgives⟩ := hpicked.returns ms out reply hret
    rw [hasked] at hby
    refine ⟨refs, rfl, ?_⟩
    rw [hgives.targets, picked_eq hby, hdone]

/-! ## The keys that the registry owns -/

/-- Every candidate shows its name and its id. -/
theorem stamped_candidate (hst : w.Stamped) {name : Option String} (hc : c ∈ w.candidates g name) :
    ∃ x, w.registration? c.1 = some x ∧ c.2.get? Properties.nameKey = some x.name ∧
      c.2.get? Properties.idKey = some (toString x.id) := by
  obtain ⟨h, -, hpair⟩ := List.mem_filterMap.mp hc
  obtain ⟨x, hx, rfl⟩ := Option.map_eq_some_iff.mp hpair
  exact ⟨x, hx, hst h x hx⟩

/-- Of all candidates, those that show a name are the candidates of that name. -/
theorem candidates_named (hst : w.Stamped) (g : Registry α) (n : String) :
    ((w.candidates g none).filter (·.2.has Properties.nameKey n)).map (·.1) = (w.candidates g (some n)).map (·.1) := by
  have hshows : ∀ c ∈ w.candidates g none, c.2.has Properties.nameKey n = w.hasName n c.1 := by
    intro c hc
    obtain ⟨x, hx, hname, -⟩ := stamped_candidate hst hc
    simp [Properties.has, hname, hasName, hx]
  have hhandles := congrArg (List.filter (w.hasName n)) (handles_candidates w g none)
  rw [List.filter_map] at hhandles
  rw [List.filter_congr hshows, handles_candidates]
  refine hhandles.trans ?_
  simp [Option.all]

/-- The text of an id tells the id. -/
theorem id_of_text {m n : ServiceId} (heq : toString m = toString n) : m = n := by
  have hdigits := congrArg (fun s : String => Nat.ofDigitChars 10 s.toList 0) heq
  simpa using hdigits

/-- These are what is active under the id that has this text: one registration, or none. -/
structure HaveId (w : World α) (r : Nat) (s : String) (hs : List Handle) : Prop where
  mem : ∀ h, h ∈ hs ↔ ∃ x, w.registration? h = some x ∧ x.home = r ∧ x.phase = .active ∧ toString x.id = s
  one : hs.length ≤ 1

/-- No two registrations of one registry have the same id. -/
theorem eq_of_id (hrising : w.Rising) {y : Registration α} (hx : w.registration? h = some x)
    (hy : w.registration? t = some y) (hhome : x.home = y.home) (hid : x.id = y.id) : h = t := by
  by_contra hne
  rcases Nat.lt_or_gt_of_ne hne with hlt | hlt
  · exact Nat.ne_of_lt (hrising h t x y hlt hx hy hhome) hid
  · exact Nat.ne_of_lt (hrising t h y x hlt hy hx hhome.symm) hid.symm

/-- Of all candidates, those that show the text of an id have it. -/
theorem candidates_haveId (hst : w.Stamped) (hc : w.Catalogued) (hi : w.Indexes r g) (s : String) :
    w.HaveId r s (((w.candidates g none).filter (·.2.has Properties.idKey s)).map (·.1)) := by
  have hsnapshot := snapshot_candidates hc hi none
  have hmem : ∀ h, h ∈ ((w.candidates g none).filter (·.2.has Properties.idKey s)).map (·.1) ↔
      ∃ x, w.registration? h = some x ∧ x.home = r ∧ x.phase = .active ∧ toString x.id = s := by
    intro h
    simp only [List.mem_map, List.mem_filter, Prod.exists, exists_and_right, exists_eq_right, hsnapshot.mem]
    constructor
    · intro hshown
      obtain ⟨p, ⟨x, hx, hhome, hphase, -, rfl⟩, hhas⟩ := hshown
      refine ⟨x, hx, hhome, hphase, ?_⟩
      simpa [Properties.has, (hst h x hx).2] using hhas
    · intro hactive
      obtain ⟨x, hx, hhome, hphase, hid⟩ := hactive
      refine ⟨x.properties, ⟨x, hx, hhome, hphase, by simp, rfl⟩, ?_⟩
      simpa [Properties.has, (hst h x hx).2] using hid
  refine ⟨hmem, ?_⟩
  have honce := hsnapshot.once.sublist ((List.filter_sublist (p := (·.2.has Properties.idKey s))).map Prod.fst)
  generalize ((w.candidates g none).filter (·.2.has Properties.idKey s)).map (·.1) = hs at hmem honce
  match hs with
  | [] => simp
  | [h] => simp
  | h :: t :: hs =>
    -- Both would have the one id.
    obtain ⟨x, hx, hhome, -, hid⟩ := (hmem h).mp (by simp)
    obtain ⟨y, hy, hhome', -, hid'⟩ := (hmem t).mp (by simp)
    obtain rfl := eq_of_id hc.rising hx hy (hhome.trans hhome'.symm) (id_of_text (hid.trans hid'.symm))
    simp at honce

/-- In every reachable world, whatever properties were supplied, a lookup that tests `objectClass` finds what the
    lookup of the name finds, in its order, and one that tests `service.id` finds what is active under
    the id. -/
theorem reserved_lookups {setups : List (Config × Bool)} {before : List (Move α)}
    (hbefore : (start setups).run before = some (w, os)) {c : Config} {hasSink : Bool}
    (hr : setups[r]? = some (c, hasSink)) (hturn : w.isClientsTurn = true) :
    (∀ n, ∃ hs, w.Lists r (.find (some n) false) hs ∧ w.FindsByKey r Properties.nameKey n hs) ∧
      ∀ s, ∃ hs, w.FindsByKey r Properties.idKey s hs ∧ w.HaveId r s hs := by
  have ht : Tallied setups w os := tallied_run hbefore
  have hst : w.Stamped := stamped_run hbefore
  have hlt : r < w.registries.size := by
    rw [ht.size]
    exact (List.getElem?_eq_some_iff.mp hr).1
  have hg := Array.getElem?_eq_getElem hlt
  have hi := ht.catalogued.indexes r _ hg
  have hnumbered := numbered_run hbefore hg
  have hpicked := findsPicked_of hg hnumbered hturn (snapshot_candidates ht.catalogued hi none)
  constructor
  · intro n
    refine ⟨_, ?_, findsByKey_of hg hturn hpicked Properties.nameKey n⟩
    rw [candidates_named hst]
    obtain ⟨out, refs, hplay, hstack, hlast, hgives⟩ :=
      findsAll_of hg hnumbered hturn (snapshot_candidates ht.catalogued hi (some n))
    exact ⟨out, refs, hplay, hstack, hlast, hgives.targets⟩
  · intro s
    exact ⟨_, findsByKey_of hg hturn hpicked Properties.idKey s, candidates_haveId hst ht.catalogued hi s⟩

/-- One service is published with the name of another in its properties, which are then replaced by such again. -/
def forgesName : List (Move Nat) :=
  [.call 0 (.register 7 "a" (.object 1) (some (.ofList [("objectClass", "b"), ("service.id", "2")]))),
   .call 0 (.register 8 "b" (.object 2) none), .call 0 (.setProperties 0 (.ofList [("objectClass", "b")]))]

/-- Each is found by its own name only. -/
theorem reserved_lookups_forgesName : ∃ w os, (start [(Config.standard, false)]).run forgesName = some (w, os) ∧
    [(Config.standard, false)][0]? = some (Config.standard, false) ∧ w.isClientsTurn = true ∧
    w.FindsByKey 0 Properties.nameKey "a" [0] ∧ w.FindsByKey 0 Properties.nameKey "b" [1] ∧
    ∃ hs, w.FindsByKey 0 Properties.idKey "2" hs ∧ w.HaveId 0 "2" hs := by
  have hany : ((start [(Config.standard, false)]).run forgesName).any (fun before => before.1.isClientsTurn &&
      (before.1.play (.call 0 (.find (some "a") false))).any (fun out => targetsReturned? out.2 == some [0]) &&
      (before.1.play (.call 0 (.find (some "b") false))).any (fun out => targetsReturned? out.2 == some [1])) = true := by
    decide +kernel
  obtain ⟨⟨w, os⟩, hbefore, hlists⟩ := (Option.any_eq_true _ _).mp hany
  simp only [Bool.and_eq_true] at hlists
  obtain ⟨⟨hturn, ha⟩, hb⟩ := hlists
  obtain ⟨hnamed, hnumbered⟩ := reserved_lookups (r := 0) (c := Config.standard) hbefore rfl hturn
  have hfinds : ∀ n hs, (w.play (.call 0 (.find (some n) false))).any (fun out => targetsReturned? out.2 == some hs) = true →
      w.FindsByKey 0 Properties.nameKey n hs := by
    intro n hs hlisted
    obtain ⟨out, hplay, htargets⟩ := (Option.any_eq_true _ _).mp hlisted
    obtain ⟨refs, hlast, rfl⟩ := returned_of_targets (beq_iff_eq.mp htargets)
    obtain ⟨hs, ⟨out', refs', hplay', -, hlast', rfl⟩, hkey⟩ := hnamed n
    obtain rfl := Option.some.inj (hplay.symm.trans hplay')
    obtain rfl := Reply.references.inj (Occurrence.returned.inj (Option.some.inj (hlast.symm.trans hlast')))
    exact hkey
  exact ⟨w, os, hbefore, rfl, hturn, hfinds _ _ ha, hfinds _ _ hb, hnumbered "2"⟩

end World

end Switchboard
