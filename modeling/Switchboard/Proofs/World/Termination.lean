/-
  Switchboard.Proofs.World.Termination — every call returns, if its call backs call finitely often.

  Whatever is in flight is at a registry that there is, so the innermost operation is never stuck: it
  goes on by itself, or with any answer that fits the call back it awaits (`Seated`). While a call
  lasts, either it goes on, which lowers the effort that is left, or the client calls something, which
  may raise it, but only so many times. So it lasts for finitely many moves, by induction on the
  calls that the client has left and, inside it, on the effort.

  The releases of one withdrawal are one section. They are a loop without a limit, which ends for
  every count (`Ledger.Empties`).
-/

import Switchboard.Proofs.World.Effort
import Switchboard.Proofs.World.Index
import Switchboard.Proofs.World.Provenance

namespace Switchboard

variable {α : Type}

def Frame.seat : Frame α → Nat
  | announcing r _ | reporting r _ _ _ | withdrawing r _ | draining r _ | filtering r _ _ _ _ | resolving r _ _ _
  | settling r _ _ _ _ _ | releasing r _ _ _ | ungetting r _ _ | unregistering r _ _ _ => r

def Question.fits : Question α → Answer α → Bool
  | event .., .done | takeBack .., .done => true
  | filter .., .verdict _ => true
  | supply .., .supplied _ => true
  | _, _ => false

def Move.isExtra : Move α → Bool
  | call .. | hold _ | drop _ => true
  | answer _ | tick => false

namespace World

variable {w w' v : World α} {g : Registry α} {f : Frame α} {out : Outcome α} {r : Nat} {h : Handle} {b : BundleId}
  {os : List (Occurrence α)} {op : Operation α} {m : Move α}

/-! ## What a move places -/

inductive Places (v : World α) (r : Nat) (out : Outcome α) : Prop
  | ended {w' : World α} {reply : Reply α} (os : List (Occurrence α)) (hstack : w'.stack = v.stack)
      (hout : out = after os (w'.finish reply))
  | placed {f : Frame α} (p : List (Frame α)) (hstack : out.1.stack = f :: (p ++ v.stack)) (hseat : ∀ k ∈ f :: p, k.seat = r)

theorem places_finish {reply : Reply α} (os : List (Occurrence α)) (hs : w'.stack = v.stack) :
    Places v r (after os (w'.finish reply)) := .ended os hs rfl

theorem places_return {reply : Reply α} (hs : w'.stack = v.stack) : Places v r (w'.finish reply) := .ended [] hs rfl

theorem places_place (os : List (Occurrence α)) (hs : w'.stack = v.stack) (hseat : f.seat = r) :
    Places v r (after os (w'.place f)) := by
  refine .placed [] (congrArg (f :: ·) hs) ?_
  simpa using hseat

theorem places_filterNext {found : List Reference} {cs : List (Handle × Properties)} (os : List (Occurrence α))
    (hs : w'.stack = v.stack) : Places v r (after os (w'.filterNext r found cs)) := by
  cases cs with
  | nil => exact places_finish os hs
  | cons c cs => exact places_place os hs rfl

theorem places_report {old : Properties} {reply : Reply α} (os : List (Occurrence α)) (hs : w'.stack = v.stack) :
    Places v r (after os (w'.report r g h old reply)) := by
  unfold report
  split
  · exact places_place os hs rfl
  · exact places_finish os hs

theorem places_returnAll (w : World α) (r : Nat) (hs : List Handle) : Places w r (w.returnAll r hs) :=
  places_finish _ (mintAll_idle r hs w).2.1

theorem places_leaving (g : Registry α) (r : Nat) (h : Handle) :
    Frame.seat (if g.hasSink then .withdrawing r h else .draining r h : Frame α) = r := by
  split <;> rfl

theorem places_unregister (w : World α) (r : Nat) (g : Registry α) (b : BundleId) (h : Handle) :
    Places w r (w.unregister r g b h) := by
  unfold unregister
  split
  · exact places_return rfl
  · split
    · unfold withdraw
      split
      · rename_i w' hw
        obtain ⟨x, -, -, -, rfl⟩ := retire?_eq_some hw
        exact places_place _ rfl (places_leaving g r h)
      · exact places_finish _ rfl
    · exact places_return rfl

theorem places_get (w : World α) (r : Nat) (g : Registry α) (b : BundleId) (ref : Reference) :
    Places w r (w.get r g b ref) := by
  cases hx : w.behind? ref with
  | none =>
    rw [get_of_invalid w r g b hx]
    exact places_return rfl
  | some x =>
    rw [get_of_valid w r g b hx]
    refine places_place _ rfl ?_
    unfold fetch
    split <;> rfl

theorem places_unget (w : World α) (r : Nat) (g : Registry α) (b : BundleId) (ref : Reference) :
    Places w r (w.unget r g b ref) := by
  unfold unget
  rcases ungetOne_cases w r g b ref with hone | ⟨left, ledger, -, hone⟩ | ⟨cached, ledger, -, hone⟩
  · rw [hone]
    exact places_finish _ rfl
  · rw [hone]
    exact places_finish [_] rfl
  · rw [hone]
    cases cached.filter fun _ => w.isAlive ref.target && w.isFactory ref.target with
    | none => exact places_finish [_] rfl
    | some o => exact places_place [_] rfl rfl

/-- A call returns at once, or it is in flight at its registry. -/
theorem places_call (w : World α) (r : Nat) (g : Registry α) (op : Operation α) : Places w r (w.call r g op) := by
  unfold call
  cases op with
  | register b name source p =>
    dsimp only
    unfold register
    split
    · exact places_return rfl
    · dsimp only
      split
      · exact places_place _ rfl rfl
      · exact places_finish _ rfl
  | unregister b h => exact places_unregister ..
  | unregisterAll b => exact places_place [] rfl rfl
  | find name filtered =>
    dsimp only
    unfold find
    dsimp only
    split
    · exact places_filterNext [] rfl
    · exact places_returnAll ..
  | findOne name =>
    dsimp only
    unfold findOne
    split
    · exact places_return rfl
    · exact places_finish _ (stack_mint ..)
  | registered b => exact places_returnAll ..
  | hooks => exact places_returnAll ..
  | get b ref => exact places_get ..
  | unget b ref => exact places_unget ..
  | ungetAll b => exact places_place [] rfl rfl
  | setProperties h p =>
    dsimp only
    unfold setProperties
    split
    · exact places_return rfl
    · split
      · exact places_report [_] rfl
      · exact places_return rfl
  | modified h old => exact places_report [] rfl
  | _ => exact places_return rfl

theorem places_ungetNext (v : World α) (r : Nat) (g : Registry α) (b : BundleId) (rest : List Reference) :
    Places v r (v.ungetNext r g b rest) := by
  unfold ungetNext
  cases rest with
  | nil => exact places_return rfl
  | cons ref rest =>
    dsimp only
    rcases ungetOne_cases v r g b ref with hone | ⟨left, ledger, -, hone⟩ | ⟨cached, ledger, -, hone⟩
    · rw [hone]
      exact places_place [] rfl rfl
    · rw [hone]
      exact places_place [_] rfl rfl
    · rw [hone]
      cases cached.filter fun _ => v.isAlive ref.target && v.isFactory ref.target with
      | none => exact places_place [_] rfl rfl
      | some o => exact .placed [.ungetting r b (ref :: rest)] rfl (by simp [Frame.seat])

theorem places_unregisterNext (v : World α) (r : Nat) (g : Registry α) (snapshot rest : List Handle) (n : Nat) :
    Places v r (v.unregisterNext r g snapshot n rest) := by
  unfold unregisterNext
  split
  · exact places_return rfl
  · split
    · rename_i h rest _ w' hw
      obtain ⟨x, -, -, -, rfl⟩ := retire?_eq_some hw
      refine .placed [.unregistering r snapshot rest (n + 1)] rfl fun k hk => ?_
      rcases List.mem_cons.mp hk with rfl | hk
      · exact places_leaving g r h
      · rw [List.mem_singleton.mp hk]
        rfl
    · exact places_place [_] rfl rfl

theorem places_resume? {q : Question α} {a : Answer α} (ho : v.resume? f a = some out) :
    Places v f.seat (after [.answered q a] out) := by
  cases resumes_of ho with
  | announced => exact places_finish _ rfl
  | reported => exact places_finish _ rfl
  | told => exact places_place _ rfl rfl
  | rejected => exact places_filterNext _ rfl
  | accepted r h => exact places_filterNext (.answered q _ :: (v.mint r h).2.2) (stack_mint v r h)
  | supplied => exact places_place _ rfl rfl
  | handed => exact places_place _ rfl rfl

/-- So is an operation that goes on. -/
theorem places_goesOn (hgo : GoesOn v f out) : Places v f.seat out := by
  rcases hgo with ⟨q, a, o, -, ho, rfl⟩ | hout
  · exact places_resume? ho
  · cases advances_of hout with
    | drains => exact places_place _ rfl rfl
    | settles => exact places_place _ rfl rfl
    | concludes r h e =>
      cases e with
      | withdrawn => exact places_finish _ rfl
      | got => exact places_finish _ rfl
      | ungot =>
        show v.Places r (v.finish (.flag true))
        exact places_return rfl
    | ungets => exact places_ungetNext ..
    | unregisters => exact places_unregisterNext ..

theorem Places.stack (hl : Places v r out) : ∃ p, out.1.stack = p ++ v.stack ∧ ∀ k ∈ p, k.seat = r := by
  cases hl with
  | ended os hstack hout =>
    subst hout
    exact ⟨[], (stack_finish ..).trans hstack, by simp⟩
  | @placed f p hstack hseat => exact ⟨f :: p, hstack, hseat⟩

/-- Where nothing is left of it and it was no part, it has returned. -/
theorem Places.returned (hl : Places v r out) (hlength : out.1.stack.length = v.stack.length)
    (hbelow : v.stack.head?.any Frame.isLoop = false) :
    out.1.stack = v.stack ∧ ∃ reply, out.2.getLast? = some (.returned reply) := by
  cases hl with
  | @ended w' reply os hstack hout =>
    subst hout
    refine ⟨(stack_finish ..).trans hstack, reply, ?_⟩
    rw [World.after, said_finish, said, hstack, hbelow]
    exact List.getLast?_concat
  | placed p hstack =>
    rw [hstack, List.length_cons, List.length_append] at hlength
    omega

/-! ## The innermost operation is never stuck -/

def Seated (w : World α) : Prop := ∀ f ∈ w.stack, f.seat < w.registries.size

theorem seated_play (hw : w.Seated) (hplay : w.play m = some out) : out.1.Seated := by
  have hsize : out.1.registries.size = w.registries.size := by
    obtain ⟨v, top, rfl, -, hs⟩ := play_step hplay
    exact (size_registries_step hs :)
  rw [Seated, hsize]
  cases moves_of_play hplay with
  | holds hturn held hout =>
    subst hout
    exact hw
  | calls hturn hop hg hout =>
    subst hout
    obtain ⟨p, hstack, hseat⟩ := (places_call w _ _ _).stack
    intro k hk
    rw [show (after _ _ : Outcome α).1.stack = _ from hstack] at hk
    rcases List.mem_append.mp hk with hk | hk
    · rw [hseat k hk]
      exact (Array.getElem?_eq_some_iff.mp hg).1
    · exact hw k hk
  | @goesOn f fs hstack hgo =>
    obtain ⟨p, hstack', hseat⟩ := (places_goesOn hgo).stack
    rw [hstack'] at *
    intro k hk
    rcases List.mem_append.mp hk with hk | hk
    · rw [hseat k hk]
      exact hw f (by simp [hstack])
    · exact hw k (by simp [hstack, show k ∈ fs from hk])

theorem seated_run {setups : List (Config × Bool)} {ms : List (Move α)} (hrun : (start setups).run ms = some out) :
    out.1.Seated :=
  run_induction (P := fun w _ => w.Seated) (fun _ _ _ _ hw hplay => seated_play hw hplay) ms _ [] out
    (fun k hk => by cases hk) hrun

theorem resume?_of_fits {q : Question α} {a : Answer α} (hq : f.question? = some q) (hfits : q.fits a = true) :
    ∃ out, v.resume? f a = some out := by
  cases f with
  | filtering r h p rest found =>
    obtain rfl := Option.some.inj hq
    cases a with
    | verdict picked => cases picked <;> exact ⟨_, rfl⟩
    | _ => cases hfits
  | releasing r h due e =>
    cases due with
    | nil => cases hq
    | cons d due =>
      obtain rfl := Option.some.inj hq
      cases a with
      | done => exact ⟨_, rfl⟩
      | _ => cases hfits
  | draining => cases hq
  | settling => cases hq
  | ungetting => cases hq
  | unregistering => cases hq
  | _ =>
    obtain rfl := Option.some.inj hq
    cases a <;> first | exact ⟨_, rfl⟩ | cases hfits

theorem advance?_of_ready (hseat : f.seat < v.registries.size) (hq : f.question? = none) :
    ∃ out, v.advance? f = some out := by
  have hmap : ∀ {r : Nat} {act : Registry α → Outcome α}, r < v.registries.size →
      ∃ out, (v.registries[r]?).map act = some out := by
    intro r act hr
    exact ⟨_, by rw [Array.getElem?_eq_getElem hr, Option.map_some]⟩
  cases f with
  | draining r h => exact hmap hseat
  | settling r h b ref fresh o => exact hmap hseat
  | ungetting r b rest => exact hmap hseat
  | unregistering r snapshot rest n => exact hmap hseat
  | releasing r h due e =>
    cases due with
    | nil => exact ⟨_, rfl⟩
    | cons d due => cases hq
  | _ => cases hq

def admits (w : World α) : Move α → Bool
  | .call r op => decide (r < w.registries.size) && w.allows op
  | .answer a => w.pending?.any (·.fits a)
  | .hold h => w.isAlive h
  | .drop h => w.held.contains h
  | .tick => false

theorem play_of_admits (hturn : w.isClientsTurn = true) (hadmits : w.admits m = true) : ∃ out, w.play m = some out := by
  cases m with
  | call r op =>
    obtain ⟨hr, hop⟩ := Bool.and_eq_true_iff.mp hadmits
    exact ⟨_, play_call hturn hop (Array.getElem?_eq_getElem (of_decide_eq_true hr))⟩
  | answer a =>
    obtain ⟨q, hq, hfits⟩ := (Option.any_eq_true _ _).mp hadmits
    cases hstack : w.stack with
    | nil => simp [pending?, hstack] at hq
    | cons f fs =>
      rw [pending?, hstack] at hq
      obtain ⟨out, ho⟩ := resume?_of_fits (v := { w with stack := fs }) hq hfits
      refine ⟨after [.answered q a] out, ?_⟩
      simp only [play, answer?, hstack, show f.question? = some q from hq, ho, bind, Option.bind_some]
  | hold h => exact ⟨_, if_pos (by rw [hturn]; exact hadmits)⟩
  | drop h => exact ⟨_, if_pos (by rw [hturn]; exact hadmits)⟩
  | tick => cases hadmits

theorem play_tick (hw : w.Seated) (hturn : w.isClientsTurn = false) : ∃ out, w.play .tick = some out := by
  cases hstack : w.stack with
  | nil => simp [isClientsTurn, hstack] at hturn
  | cons f fs =>
    simp only [isClientsTurn, pending?, hstack, List.isEmpty_cons, Bool.false_or, List.head?_cons, Option.bind_some,
      Option.isSome_eq_false_iff, Option.isNone_iff_eq_none] at hturn
    obtain ⟨out, hout⟩ := advance?_of_ready (v := { w with stack := fs }) (hw f (by simp [hstack])) hturn
    exact ⟨out, by simp only [play, tick?, hstack, hout]⟩

/-! ## What comes of a call -/

/-- The first `k` moves after a call: the client's, who knows those before, where it is its turn, and else the
    innermost operation goes on. -/
def course (w : World α) (r : Nat) (op : Operation α) (client : List (Move α) → Move α) : Nat → List (Move α)
  | 0 => []
  | k + 1 =>
    let ms := course w r op client k
    match w.run (.call r op :: ms) with
    | some out => ms ++ [if out.1.isClientsTurn then client ms else .tick]
    | none => ms

/-- While the call lasts, the client does what it may, and `n` times at most something else than to answer. -/
structure Bounded (w : World α) (r : Nat) (op : Operation α) (client : List (Move α) → Move α) (n : Nat) : Prop where
  admitted : ∀ k out, Lasts w r op (w.course r op client k) out → out.1.isClientsTurn = true →
    out.1.admits (client (w.course r op client k)) = true
  few : ∀ k out, Lasts w r op (w.course r op client k) out → (w.course r op client k).countP Move.isExtra ≤ n

variable {client : List (Move α) → Move α} {n k : Nat} {ms : List (Move α)} {last : Outcome α}

theorem course_succ (hlasts : Lasts w r op (w.course r op client k) out) : w.course r op client (k + 1) =
    w.course r op client k ++ [if out.1.isClientsTurn then client (w.course r op client k) else .tick] := by
  rw [course]
  simp only [hlasts.run]

/-- While a call lasts, there is something on top of what was in flight before it. -/
theorem Lasts.stack (hlasts : Lasts w r op ms out) : ∃ f p, out.1.stack = f :: (p ++ w.stack) := by
  have hcons : ∀ (p : List (Frame α)) (o : Outcome α), o.1.stack = p ++ w.stack → w.stack.length < o.1.stack.length →
      ∃ f p, o.1.stack = f :: (p ++ w.stack) := by
    intro p o hstack hmore
    cases p with
    | nil =>
      rw [hstack] at hmore
      exact absurd hmore (Nat.lt_irrefl _)
    | cons f p => exact ⟨f, p, hstack⟩
  refine hlasts.induction (P := fun _ o => ∃ f p, o.1.stack = f :: (p ++ w.stack)) ?_ ?_
  · intro o hplay hmore
    obtain ⟨-, -, g, -, rfl⟩ := calls_of_play hplay
    obtain ⟨p, hstack, -⟩ := (places_call w r g op).stack
    exact hcons p _ hstack hmore
  · intro l o m last _ hP hplay hmore
    obtain ⟨f, p, hstack⟩ := hP
    rcases play_cases hplay with ⟨-, q, hq⟩ | ⟨f', fs, hf, hgo⟩
    · refine hcons (q ++ f :: p) (last.1, o.2 ++ last.2) ?_ hmore
      rw [show last.1.stack = _ from hq, hstack, List.append_assoc]
      rfl
    · obtain ⟨q, hq, -⟩ := (places_goesOn hgo).stack
      obtain ⟨-, rfl⟩ := List.cons.inj (hf.symm.trans hstack)
      refine hcons (q ++ p) (last.1, o.2 ++ last.2) ?_ hmore
      rw [show last.1.stack = _ from hq, List.append_assoc]

/-- What the client does besides goes on top. -/
theorem stack_of_extra (hextra : m.isExtra = true) (hplay : w.play m = some out) : w.stack.length ≤ out.1.stack.length := by
  cases m with
  | call r op =>
    obtain ⟨-, -, g, -, rfl⟩ := calls_of_play hplay
    obtain ⟨p, hstack, -⟩ := (places_call w r g op).stack
    rw [show (after _ _ : Outcome α).1.stack = _ from hstack, List.length_append]
    omega
  | hold h =>
    obtain ⟨held, rfl⟩ := held_of_hold hplay
    exact Nat.le_refl _
  | drop h =>
    obtain ⟨held, rfl⟩ := held_of_drop hplay
    exact Nat.le_refl _
  | answer => cases hextra
  | tick => cases hextra

/-- With an answer, and where it is not the client's turn, the innermost operation goes on. -/
theorem goesOn_of_play (hextra : m.isExtra = false) (hplay : w.play m = some out) :
    ∃ f fs, w.stack = f :: fs ∧ GoesOn { w with stack := fs } f out := by
  cases m with
  | answer a =>
    obtain ⟨f, fs, q, o, hstack, hq, ho, rfl⟩ := answered_of_play hplay
    exact ⟨f, fs, hstack, Or.inl ⟨q, a, o, hq, ho, rfl⟩⟩
  | tick =>
    dsimp only [play, tick?] at hplay
    split at hplay
    · cases hplay
    · rename_i f fs hstack
      exact ⟨f, fs, hstack, Or.inr hplay⟩
  | _ => cases hextra

/-- While a call lasts, there is a next move. -/
theorem next_of_lasts (hseated : out.1.Seated) (hb : w.Bounded r op client n) (hlasts : Lasts w r op (w.course r op client k) out) :
    ∃ m last, w.course r op client (k + 1) = w.course r op client k ++ [m] ∧ out.1.play m = some last := by
  have hnext := course_succ hlasts
  cases hturn : out.1.isClientsTurn with
  | true =>
    rw [hturn, if_pos rfl] at hnext
    obtain ⟨last, hplay⟩ := play_of_admits hturn (hb.admitted k out hlasts hturn)
    exact ⟨_, last, hnext, hplay⟩
  | false =>
    rw [hturn] at hnext
    obtain ⟨last, hplay⟩ := play_tick hseated hturn
    exact ⟨.tick, last, hnext, hplay⟩

/-- With the next move the call still lasts, or it returns. -/
theorem lasts_or_returns (hturn : w.isClientsTurn = true) (hlasts : Lasts w r op ms out) (hplay : out.1.play m = some last) :
    Lasts w r op (ms ++ [m]) (last.1, out.2 ++ last.2) ∨ ∃ reply, Returns w r op (ms ++ [m]) (last.1, out.2 ++ last.2) reply := by
  by_cases hmore : w.stack.length < last.1.stack.length
  · exact Or.inl (hlasts.next hplay hmore)
  · right
    obtain ⟨f, p, hstack⟩ := hlasts.stack
    cases hextra : m.isExtra with
    | true =>
      have hle := stack_of_extra hextra hplay
      rw [hstack, List.length_cons, List.length_append] at hle
      omega
    | false =>
      obtain ⟨f', fs, hf, hgo⟩ := goesOn_of_play hextra hplay
      obtain ⟨rfl, rfl⟩ := List.cons.inj (hf.symm.trans hstack)
      have hplaces := places_goesOn hgo
      obtain ⟨q, hq, -⟩ := hplaces.stack
      have hlength := congrArg List.length hq
      dsimp only at hlength
      rw [List.length_append, List.length_append] at hlength
      -- Nothing is left of what was on top.
      obtain rfl : p = [] := List.eq_nil_of_length_eq_zero (by omega)
      obtain ⟨hback, reply, hreply⟩ := hplaces.returned (by dsimp only; rw [List.nil_append]; omega) (not_loop_of_turn hturn)
      exact ⟨reply, hlasts.ends hplay (congrArg List.length hback) hreply⟩

/-- Where the ledgers are sound, an operation that goes on lowers the effort of the whole world. -/
theorem effort_of_goesOn {fs : List (Frame α)} (hsound : ∀ (r : Nat) (g : Registry α), w.registries[r]? = some g → g.ledger.Sound)
    (hstack : w.stack = f :: fs) (hgo : GoesOn { w with stack := fs } f out) : out.1.effort < w.effort := by
  have hless := effort_goesOn (v := { w with stack := fs }) hsound hgo
  have honto : w.effort = f.effort + World.effort { w with stack := fs } := by
    rw [effort, effort, hstack]
    simp [load, Nat.add_assoc]
  omega

/-- By induction on what the client may still do besides, and inside it on the effort that is left. -/
theorem returns_of_lasts {setups : List (Config × Bool)} {before : List (Move α)}
    (hbefore : (start setups).run before = some (w, os)) (hturn : w.isClientsTurn = true) (hb : w.Bounded r op client n) :
    ∀ left c k out, Lasts w r op (w.course r op client k) out → n - (w.course r op client k).countP Move.isExtra = left →
      out.1.effort = c → ∃ k out reply, Returns w r op (w.course r op client k) out reply := by
  intro left
  induction left using Nat.strong_induction_on with
  | _ left houter =>
  intro c
  induction c using Nat.strong_induction_on with
  | _ c hinner =>
  intro k out hlasts hleft heffort
  have hreach : (start setups).run (before ++ .call r op :: w.course r op client k) = some (out.1, os ++ out.2) :=
    run_trans hbefore hlasts.run
  have hseated : out.1.Seated := (seated_run hreach :)
  obtain ⟨m, last, hnext, hplay⟩ := next_of_lasts hseated hb hlasts
  rcases lasts_or_returns hturn hlasts hplay with hlasts' | ⟨reply, hret⟩
  · rw [← hnext] at hlasts'
    have hfew := hb.few (k + 1) _ hlasts'
    have hcount : (w.course r op client (k + 1)).countP Move.isExtra =
        (w.course r op client k).countP Move.isExtra + if m.isExtra then 1 else 0 := by
      rw [hnext, List.countP_append, List.countP_singleton]
    cases hextra : m.isExtra with
    | true =>
      rw [hextra, if_pos rfl] at hcount
      refine houter (n - (w.course r op client (k + 1)).countP Move.isExtra) ?_ last.1.effort (k + 1) _ hlasts' rfl rfl
      omega
    | false =>
      rw [hextra] at hcount
      obtain ⟨f, fs, hstack, hgo⟩ := goesOn_of_play hextra hplay
      have hless : last.1.effort < out.1.effort :=
        effort_of_goesOn (fun r g hg => ((provided_run hreach).stocked r g hg).sound) hstack hgo
      refine hinner last.1.effort (by omega) (k + 1) _ hlasts' ?_ rfl
      rw [hcount]
      exact hleft
  · rw [← hnext] at hret
    exact ⟨k + 1, _, reply, hret⟩

/-- In every reachable world of any registries: each call that the client may make returns, if while it lasts the client
    does only what it may, and finitely often something else than to answer. And where a withdrawal takes back the
    uses of a pair, releasing it over and over ends, whatever its count. -/
theorem every_call_returns {setups : List (Config × Bool)} {before : List (Move α)}
    (hbefore : (start setups).run before = some (w, os)) :
    (∀ r op client n, w.isClientsTurn = true → w.admits (.call r op) = true → w.Bounded r op client n →
      ∃ k out reply, Returns w r op (w.course r op client k) out reply) ∧
    ∀ (r : Nat) (g : Registry α) (h : Handle), w.registries[r]? = some g → ∀ ps p qs, g.ledger.holders h = ps ++ p :: qs →
      Ledger.Empties p.1 p.2 (Ledger.reclaimAll ⟨0, [], g.ledger⟩ ps).ledger
        ((Ledger.reclaimAll ⟨0, [], g.ledger⟩ ps).ledger.reclaim p.1 p.2) := by
  constructor
  · intro r op client n hturn hadmits hb
    obtain ⟨out, hplay⟩ := play_of_admits hturn hadmits
    by_cases hmore : w.stack.length < out.1.stack.length
    · exact returns_of_lasts hbefore hturn hb _ _ 0 out (lasts_of_play hplay hmore) rfl rfl
    · obtain ⟨-, -, g, -, rfl⟩ := calls_of_play hplay
      have hplaces := places_call w r g op
      obtain ⟨p, hstack, -⟩ := hplaces.stack
      have hlength := congrArg List.length hstack
      rw [List.length_append] at hlength
      obtain ⟨hback, reply, hreply⟩ := hplaces.returned (by dsimp only [after] at hmore; omega) (not_loop_of_turn hturn)
      refine ⟨0, _, reply, returns_of_play hplay (congrArg List.length hback) ?_⟩
      rw [after, List.getLast?_append, hreply]
      rfl
  · intro r g h hg ps p qs _
    exact Ledger.empties_drain ((provided_run hbefore).stocked r g hg).sound ps p.1 p.2

theorem course_mono {j : Nat} (hjk : j ≤ k) : w.course r op client j <+: w.course r op client k := by
  induction hjk with
  | refl => exact List.prefix_refl _
  | @step k _ ih =>
    refine ih.trans ?_
    rw [course]
    split
    · exact List.prefix_append ..
    · exact List.prefix_refl _

/-- If a call has returned by the `n`-th move, the client need be looked at until then only. -/
theorem bounded_of_all {j : Nat}
    (hall : (List.range j).all (fun k => (w.run (.call r op :: w.course r op client k)).all fun out =>
      (!out.1.isClientsTurn || out.1.admits (client (w.course r op client k))) &&
        decide ((w.course r op client k).countP Move.isExtra ≤ n)) = true)
    (hover : (w.run (.call r op :: w.course r op client j)).all (fun out => decide (out.1.stack.length ≤ w.stack.length)) = true) :
    w.Bounded r op client n := by
  have hwithin : ∀ k out, Lasts w r op (w.course r op client k) out → k < j := by
    intro k out hlasts
    by_contra hk
    obtain ⟨rest, hrest⟩ : w.course r op client j <+: w.course r op client k := course_mono (Nat.not_lt.mp hk)
    have hrun := hlasts.run
    rw [← hrest, ← List.cons_append, run_append] at hrun
    obtain ⟨o, ho, -⟩ := Option.bind_eq_some_iff.mp hrun
    have hmore := hlasts.inside _ ⟨rest, hrest⟩ o ho
    rw [ho, Option.all_some, decide_eq_true_eq] at hover
    omega
  have hone : ∀ k out, Lasts w r op (w.course r op client k) out →
      (!out.1.isClientsTurn || out.1.admits (client (w.course r op client k))) = true ∧
        (w.course r op client k).countP Move.isExtra ≤ n := by
    intro k out hlasts
    have hk := List.all_eq_true.mp hall k (List.mem_range.mpr (hwithin k out hlasts))
    rw [hlasts.run, Option.all_some, Bool.and_eq_true, decide_eq_true_eq] at hk
    exact hk
  constructor
  · intro k out hlasts hturn
    have hadmitted := (hone k out hlasts).1
    rw [hturn] at hadmitted
    exact hadmitted
  · exact fun k out hlasts => (hone k out hlasts).2

def usesFactory : List (Move Nat) :=
  [.call 0 (.register 7 "a" .factory none), .call 0 (.findOne "a"), .call 0 (.get 8 ⟨1, 1, 0⟩), .answer (.supplied (some 1)),
   .tick, .tick]

/-- When the factory gets its object back, it takes a new use of the pair that is released. -/
def retakes : List (Move Nat) :=
  [.tick, .call 0 (.get 8 ⟨1, 1, 0⟩), .answer (.supplied (some 2)), .tick, .tick, .answer .done, .tick, .tick, .answer .done,
   .tick, .tick, .tick]

def follows (script ms : List (Move Nat)) : Move Nat := script.getD ms.length .tick

/-- The call for all uses of the bundle takes back that one too. A withdrawal in its place would release the pair until
    its entry is gone. -/
theorem every_call_returns_retakes : ∃ w os g, (start [(Config.standard, false)]).run usesFactory = some (w, os) ∧
    w.isClientsTurn = true ∧ w.admits (.call 0 (.ungetAll 8)) = true ∧
    w.Bounded 0 (.ungetAll 8) (follows retakes) 1 ∧
    (∃ k out reply, Returns w 0 (.ungetAll 8) (w.course 0 (.ungetAll 8) (follows retakes) k) out reply) ∧
    w.registries[0]? = some g ∧ g.ledger.holders 0 = [(8, 1)] ∧
    Ledger.Empties 8 1 g.ledger (g.ledger.reclaim 8 1) := by
  have hany : ((start [(Config.standard, false)]).run usesFactory).any (fun before => before.1.isClientsTurn &&
      before.1.admits (.call 0 (.ungetAll 8)) &&
      (List.range 12).all (fun k =>
        (before.1.run (.call 0 (.ungetAll 8) :: before.1.course 0 (.ungetAll 8) (follows retakes) k)).all
          fun out => (!out.1.isClientsTurn ||
            out.1.admits (follows retakes (before.1.course 0 (.ungetAll 8) (follows retakes) k))) &&
            decide ((before.1.course 0 (.ungetAll 8) (follows retakes) k).countP Move.isExtra ≤ 1)) &&
      (before.1.run (.call 0 (.ungetAll 8) :: before.1.course 0 (.ungetAll 8) (follows retakes) 12)).all
        (fun out => decide (out.1.stack.length ≤ before.1.stack.length)) &&
      (before.1.registries[0]?).any fun g => g.ledger.holders 0 == [(8, 1)]) = true := by
    decide +kernel
  obtain ⟨⟨w, os⟩, hbefore, hall⟩ := (Option.any_eq_true _ _).mp hany
  simp only [Bool.and_eq_true] at hall
  obtain ⟨⟨⟨⟨hturn, hadmits⟩, hbounded⟩, hover⟩, hheld⟩ := hall
  have hb := bounded_of_all hbounded hover
  obtain ⟨g, hg, hholders⟩ := (Option.any_eq_true _ _).mp hheld
  obtain ⟨hreturns, hempties⟩ := every_call_returns hbefore
  exact ⟨w, os, g, hbefore, hturn, hadmits, hb, hreturns 0 (.ungetAll 8) _ 1 hturn hadmits hb, hg, beq_iff_eq.mp hholders,
    hempties 0 g 0 hg [] (8, 1) [] (beq_iff_eq.mp hholders)⟩

end World

end Switchboard
