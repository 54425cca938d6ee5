/-
  Switchboard.Proofs.World.Sweep — a bundle gives back all its uses.

  The sweep goes through the references the bundle used when it was called, and releases each
  until no use of it is found; the factories call nothing. It comes to its end whatever the
  counts are, and also where entries have no object yet, for a `get` in flight. Then the bundle
  has no entry, its cached objects went back to their factories, once each in the order of the
  entries, and nothing else changed (`ungetAll_ensures`).

  The proof is an induction on the entries that are left, and for the first of them on its count
  (`arrives_first`).
-/

import Switchboard.Proofs.World.Binding

namespace Switchboard

variable {α : Type}

namespace Ledger

variable {l l' : Ledger α} {b : BundleId} {id : Nat}

/-- The ledger `l'` is `l` without the entries of a bundle. -/
structure Swept (l : Ledger α) (b : BundleId) (l' : Ledger α) : Prop where
  sound : l'.Sound
  here : l'.usages b = []
  others : ∀ c, c ≠ b → l'.usages c = l.usages c

theorem Swept.references (hs : l.Swept b l') : l'.references b = [] :=
  congrArg (List.map Usage.reference) hs.here

theorem Swept.count? (hs : l.Swept b l') (id : Nat) : l'.count? b id = none := by
  rw [Ledger.count?, usage?_eq, hs.here]
  rfl

/-- Editing a bundle's first entry leaves those behind it. -/
theorem Edit.first {u : Usage α} {us : List (Usage α)} {v : Option (Usage α)} (he : l.Edit l' b id (some u) v)
    (hl : l.usages b = u :: us) : l'.usages b = v.toList ++ us := by
  obtain ⟨pre, post, hbefore, hafter, hne⟩ := he.here
  have hid := he.before u rfl
  have hsplit : [] ++ u :: us = pre ++ u :: post := by
    rw [List.nil_append, ← hl]
    simpa using hbefore
  obtain ⟨rfl, rfl⟩ := split_unique id hsplit hid hid (by simp) fun y hy => hne y (List.mem_append_left _ hy)
  simpa using hafter

end Ledger

namespace World

variable {w : World α} {g : Registry α} {l : Ledger α} {b : BundleId} {ref : Reference} {refs : List Reference}
  {u : Usage α} {us : List (Usage α)} {os : List (Occurrence α)} {answers : Answer α → Prop} {Q : Outcome α → Prop}
  {held : List Handle}

def handBacks (w : World α) (b : BundleId) (us : List (Usage α)) : List (Question α) :=
  (us.filter fun u => w.isFactory u.reference.target).filterMap fun u => u.object.map (.takeBack u.reference.target b ·)

def sweeping (w : World α) (g : Registry α) (l : Ledger α) (held : List Handle) (b : BundleId) (refs : List Reference) :
    World α :=
  { w.withLedger g l held with stack := .ungetting 0 b refs :: w.stack }

/-- One more step of the sweep. -/
theorem arrives_ungetting (hnext : ∀ held, Arrives answers w.stack.length (fun _ => True) Q
      (after os ((w.withLedger g l held).ungetNext 0 { g with ledger := l } b refs))) :
    Arrives answers w.stack.length (fun _ => True) Q (w.sweeping g l held b refs, os) :=
  arrives_advance (w := w.withLedger g l held) (Nat.le_refl _) rfl (fun _ => trivial) fun held' =>
    ⟨_, rfl, hnext held'⟩

/-- It is done with a reference that has no entry. -/
theorem arrives_gone (hu : l.usage? b ref.id = none)
    (hrest : ∀ held, Arrives answers w.stack.length (fun _ => True) Q (w.sweeping g l held b refs, os)) :
    Arrives answers w.stack.length (fun _ => True) Q (w.sweeping g l held b (ref :: refs), os) := by
  refine arrives_ungetting fun held' => ?_
  rw [ungetNext, ungetOne_of_none (g := { g with ledger := l }) hu]
  show Arrives _ _ _ _ (w.sweeping g l held' b refs, os ++ ([] ++ []))
  rw [List.append_nil, List.append_nil]
  exact hrest held'

theorem handBacks_append (w : World α) (b : BundleId) (us vs : List (Usage α)) :
    w.handBacks b (us ++ vs) = w.handBacks b us ++ w.handBacks b vs := by
  rw [handBacks, List.filter_append, List.filterMap_append]
  rfl

theorem handBacks_singleton (w : World α) (b : BundleId) (u : Usage α) : w.handBacks b [u] =
    ((u.object.filter fun _ => w.isFactory u.reference.target).map (.takeBack u.reference.target b ·)).toList := by
  cases hfactory : w.isFactory u.reference.target <;> cases hobject : u.object <;> simp [handBacks, hfactory, hobject, Option.filter]

/-- With the last use the first entry goes, and its object goes back to a factory. -/
theorem arrives_last (hst : Standing w g) (hdone : answers .done) (hlast : u.count ≤ 1) (hl : l.Sound)
    (hus : l.usages b = u :: us) (hvalid : w.isValid u.reference.target = true)
    (hrest : ∀ (l' : Ledger α) held' os', l'.Sound → l'.usages b = us → (∀ c, c ≠ b → l'.usages c = l.usages c) →
      questions os' = questions os ++ w.handBacks b [u] → replies os' = replies os →
      Arrives answers w.stack.length (fun _ => True) Q (w.sweeping g l' held' b refs, os')) :
    Arrives answers w.stack.length (fun _ => True) Q (w.sweeping g l held b (u.reference :: refs), os) := by
  refine arrives_ungetting fun held' => ?_
  have hu : l.usage? b u.reference.id = some u := Ledger.usage?_of_mem hl (by rw [hus]; exact List.mem_cons_self ..)
  obtain ⟨l', hl', he, hone⟩ := ungetOne_of_last (w := w.withLedger g l held') (r := 0) (g := { g with ledger := l }) hl
    hvalid hu hlast
  have hfactory : (w.withLedger g l held').isFactory u.reference.target = w.isFactory u.reference.target := rfl
  have hgone : ∀ held'' os', questions os' = questions os ++ w.handBacks b [u] → replies os' = replies os →
      Arrives answers w.stack.length (fun _ => True) Q (w.sweeping g l' held'' b (u.reference :: refs), os') :=
    fun held'' os' hasked hreplied => arrives_gone he.usage?_after fun held'' =>
      hrest l' held'' os' hl' (he.first hus) he.others hasked hreplied
  rw [handBacks_singleton] at hgone
  rw [ungetNext, hone, isAlive_withLedger hst hvalid, hfactory, Bool.true_and]
  cases hback : u.object.filter fun _ => w.isFactory u.reference.target with
  | none =>
    refine hgone held' _ ?_ ?_
    · rw [hback, questions_append]
      rfl
    · rw [replies_append]
      exact List.append_nil _
  | some o =>
    have hmade : (w.sweeping g l' held' b (u.reference :: refs)).isFactory u.reference.target = true :=
      (Option.filter_eq_some_iff.mp hback).2
    show Arrives _ _ _ _ (after os (after ([.flushed 0 b u.reference] ++ [])
      ((w.sweeping g l' held' b (u.reference :: refs)).release 0 u.reference.target [(b, o)] .ungot)))
    rw [after_after, release_of_factory hmade]
    refine arrives_releasing hdone _ _ _ (Nat.le_succ w.stack.length) (fun _ _ => trivial) fun held'' => ?_
    -- What ends here is part of the sweep, which goes on.
    refine hgone held'' _ ?_ ?_
    · rw [hback, questions_append, questions_append, questions_append]
      show questions os ++ [] ++ [_] ++ [] = questions os ++ [_]
      rw [List.append_nil, List.append_nil]
    · rw [replies_append, replies_append, replies_append]
      show replies os ++ [] ++ [] ++ [] = replies os
      rw [List.append_nil, List.append_nil, List.append_nil]

/-- Release after release takes the first entry out, and its object goes back to a factory. -/
theorem arrives_first (hst : Standing w g) (hdone : answers .done) (n : Nat) : ∀ {u : Usage α} {l : Ledger α}
    {held : List Handle} {os : List (Occurrence α)}, u.count ≤ n → l.Sound → l.usages b = u :: us →
    w.isValid u.reference.target = true →
    (∀ (l' : Ledger α) held' os', l'.Sound → l'.usages b = us → (∀ c, c ≠ b → l'.usages c = l.usages c) →
      questions os' = questions os ++ w.handBacks b [u] → replies os' = replies os →
      Arrives answers w.stack.length (fun _ => True) Q (w.sweeping g l' held' b refs, os')) →
    Arrives answers w.stack.length (fun _ => True) Q (w.sweeping g l held b (u.reference :: refs), os) := by
  induction n with
  | zero =>
    intro u l held os hn hl hus hvalid hrest
    exact arrives_last hst hdone (by omega) hl hus hvalid hrest
  | succ n ih =>
    intro u l held os hn hl hus hvalid hrest
    by_cases hmany : 1 < u.count
    · refine arrives_ungetting fun held' => ?_
      have hu : l.usage? b u.reference.id = some u := Ledger.usage?_of_mem hl (by rw [hus]; exact List.mem_cons_self ..)
      obtain ⟨l', hl', he, hone⟩ := ungetOne_of_many (w := w.withLedger g l held') (r := 0)
        (g := { g with ledger := l }) hl hvalid hu hmany
      rw [ungetNext, hone]
      show Arrives _ _ _ _ (w.sweeping g l' held' b (u.reference :: refs), os ++ ([.released 0 b u.reference _] ++ []))
      refine ih (u := { u with count := u.count - 1 }) (l := l') (by simp only; omega) hl' (he.first hus) hvalid ?_
      intro l'' held'' os' hl'' hus' hothers hasked hreplied
      refine hrest l'' held'' os' hl'' hus' (fun c hc => (hothers c hc).trans (he.others c hc)) ?_ ?_
      · rw [hasked, questions_append, handBacks_singleton, handBacks_singleton]
        exact congrArg (· ++ _) (List.append_nil (questions os))
      · rw [hreplied, replies_append]
        exact List.append_nil _
    · exact arrives_last hst hdone (by omega) hl hus hvalid hrest

/-- Entry after entry goes, and then the sweep returns. -/
theorem arrives_sweep (hst : Standing w g) (hturn : w.isClientsTurn = true) (hdone : answers .done) (us : List (Usage α)) :
    ∀ {l : Ledger α} {held : List Handle} {os : List (Occurrence α)}, l.Sound → l.usages b = us →
      (∀ u ∈ us, w.isValid u.reference.target = true) →
      (∀ (l' : Ledger α) held' os', l.Swept b l' → questions os' = questions os ++ w.handBacks b us →
        replies os' = replies os ++ [.done] → Q (w.withLedger g l' held', os')) →
      Arrives answers w.stack.length (fun _ => True) Q (w.sweeping g l held b (us.map (·.reference)), os) := by
  induction us with
  | nil =>
    intro l held os hl hus _ hend
    refine arrives_ungetting fun held' => ?_
    refine arrives_finish (w := w.withLedger g l held') hturn (by simp) ?_
    refine hend l held' _ ⟨hl, hus, fun _ _ => rfl⟩ ?_ ?_
    · rw [questions_append]
      rfl
    · rw [replies_append]
      rfl
  | cons u us ih =>
    intro l held os hl hus hvalid hend
    refine arrives_first hst hdone u.count (Nat.le_refl _) hl hus (hvalid u (List.mem_cons_self ..)) ?_
    intro l' held' os' hl' hus' hothers hasked hreplied
    refine ih hl' hus' (fun v hv => hvalid v (List.mem_cons_of_mem _ hv)) fun l'' held'' os'' hswept hasked' hreplied' => ?_
    refine hend l'' held'' os'' ⟨hswept.sound, hswept.here, fun c hc => (hswept.others c hc).trans (hothers c hc)⟩ ?_ ?_
    · rw [hasked', hasked, List.append_assoc, ← handBacks_append]
      rfl
    · rw [hreplied', hreplied]

/-- Whatever its counts are and whatever is in flight, a bundle that gives back all its uses has no
    entry left, and its objects go back to their factories, if these call nothing. -/
theorem ungetAll_ensures {c : Config} {hasSink : Bool} {ms : List (Move α)}
    (hrun : (start [(c, hasSink)]).run ms = some (w, os)) (hturn : w.isClientsTurn = true) (hsole : w.registries = #[g])
    (b : BundleId) : w.Ensures (fun _ => True) 0 (.ungetAll b) (fun _ => True) fun out => ∃ l : Ledger α,
      Rebooked w g l (w.handBacks b (g.ledger.usages b)) [.done] out ∧ l.references b = [] ∧
      (∀ id, l.count? b id = none) ∧ ∀ c, c ≠ b → l.usages c = g.ledger.usages c := by
  obtain ⟨k, hst⟩ := standing_run hrun
  obtain rfl := hst.eq hsole
  have hat : w.registries[0]? = some g := by
    rw [hsole]
    rfl
  refine ⟨_, play_call hturn rfl hat, ?_⟩
  have hsweep : Arrives (fun _ => True) w.stack.length (fun _ => True) (fun out => ∃ l : Ledger α,
      Rebooked w g l (w.handBacks b (g.ledger.usages b)) [.done] out ∧ l.references b = [] ∧
      (∀ id, l.count? b id = none) ∧ ∀ c, c ≠ b → l.usages c = g.ledger.usages c)
      (w.sweeping g g.ledger w.held b (g.ledger.references b), [.called 0 (.ungetAll b)]) := by
    refine arrives_sweep hst hturn trivial (g.ledger.usages b) hst.sound.ledger rfl (hst.valid b) ?_
    intro l held os' hswept hasked hreplied
    exact ⟨l, ⟨⟨held, rfl⟩, hasked, hreplied⟩, hswept.references, hswept.count?, hswept.others⟩
  rw [sweeping, withLedger_self hsole] at hsweep
  exact hsweep

/-- A bundle uses an object and two references to a factory's service, and waits for the second of them. -/
def stillWaiting : List (Move Nat) :=
  [.call 0 (.register 7 "a" .factory none), .call 0 (.register 7 "b" (.object 5) none),
   .call 0 (.findOne "a"), .call 0 (.findOne "b"), .call 0 (.findOne "a"),
   .call 0 (.get 9 ⟨1, 1, 0⟩), .answer (.supplied (some 20)), .tick, .tick, .call 0 (.get 9 ⟨2, 2, 1⟩), .tick, .tick,
   .call 0 (.get 9 ⟨2, 2, 1⟩), .tick, .tick, .call 0 (.get 9 ⟨3, 1, 0⟩)]

theorem ungetAll_ensures_stillWaiting : ∃ w os g, (start [(Config.standard, false)]).run stillWaiting = some (w, os) ∧
    w.registries = #[g] ∧ g.ledger.references 9 = [⟨1, 1, 0⟩, ⟨2, 2, 1⟩, ⟨3, 1, 0⟩] ∧
    w.Ensures (fun _ => True) 0 (.ungetAll 9) (fun _ => True) fun out => ∃ l : Ledger Nat,
      Rebooked w g l (w.handBacks 9 (g.ledger.usages 9)) [.done] out ∧ l.references 9 = [] ∧
      (∀ id, l.count? 9 id = none) ∧ ∀ c, c ≠ 9 → l.usages c = g.ledger.usages c := by
  have hany : ((start [(Config.standard, false)]).run stillWaiting).any (fun out => out.1.isClientsTurn &&
      out.1.registries.all fun g => g.ledger.references 9 == [⟨1, 1, 0⟩, ⟨2, 2, 1⟩, ⟨3, 1, 0⟩]) = true := by
    decide +kernel
  obtain ⟨⟨w, os⟩, hrun, hw⟩ := (Option.any_eq_true _ _).mp hany
  obtain ⟨hturn, hused⟩ := Bool.and_eq_true_iff.mp hw
  obtain ⟨g, hst⟩ := standing_run hrun
  have hsole : w.registries = #[g] := hst.sole
  have hused : w.registries.all (fun g => g.ledger.references 9 == [⟨1, 1, 0⟩, ⟨2, 2, 1⟩, ⟨3, 1, 0⟩]) = true := hused
  rw [hsole] at hused
  exact ⟨w, os, g, hrun, hsole, by simpa using hused, ungetAll_ensures hrun hturn hsole 9⟩

end World

end Switchboard
