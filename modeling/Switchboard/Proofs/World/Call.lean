/-
  Switchboard.Proofs.World.Call — a call from its start to its return.

  A call lasts as long as there is more in flight than when it started, and it is over when there
  is as much again (`Returns`). Meanwhile its own operation stays where it is on the stack, under
  whatever its call backs start, and goes on only when it is innermost (`play_inside`). What the
  operation's own moves keep, and what the moves above it keep, therefore holds throughout
  (`Returns.induction`).
-/

import Mathlib.Data.List.Induction
import Mathlib.Data.List.Infix
import Switchboard.Proofs.World.Standing

namespace Switchboard

namespace World

variable {α : Type} {w v : World α} {top : Option (Frame α)} {out : Outcome α} {m : Move α} {f : Frame α}
  {s : List (Frame α)} {r : Nat} {op : Operation α} {ms : List (Move α)} {reply : Reply α}

/-! ## Moves above an operation and its own -/

/-- A step leaves what is below alone, and of what it places all but the innermost are loops. -/
theorem step_places (hs : Step v top out) : ∃ p, out.1.stack = p ++ v.stack ∧ ∀ k ∈ p.tail, k.isLoop := by
  have hone : ∀ o : Option (Frame α), ∀ k ∈ o.toList.tail, k.isLoop := by
    intro o k hk
    cases o <;> cases hk
  have hunder : ∀ {o : Option (Frame α)}, v.Under top o → ∀ k ∈ o.toList, k.isLoop := fun ho k hk =>
    (ho k (Option.mem_toList.mp hk)).1
  cases hs with
  | idle _ hi =>
    obtain ⟨f, hf, -⟩ := hi.stack
    exact ⟨f.toList, hf, hone f⟩
  | publish => exact ⟨_, rfl, hone _⟩
  | @retire _ f _ _ _ _ _ _ hf => exact ⟨_ :: f.toList, rfl, hunder hf⟩
  | @flush _ f _ _ _ _ _ _ _ k _ hf =>
    refine ⟨k.toList ++ f.toList, (List.append_assoc ..).symm, ?_⟩
    cases k with
    | none => exact hone f
    | some k => exact hunder hf
  | @decrement _ f => exact ⟨f.toList, rfl, hone f⟩
  | _ => exact ⟨[_], rfl, by simp⟩

theorem step_grows (hs : Step v top out) : ∃ p, out.1.stack = p ++ v.stack := by
  obtain ⟨p, hp, -⟩ := step_places hs
  exact ⟨p, hp⟩

/-- A move is the client's, who goes on top of what is in flight, or the innermost operation goes on. -/
theorem play_cases (hplay : w.play m = some out) :
    (w.isClientsTurn = true ∧ ∃ p, out.1.stack = p ++ w.stack) ∨
    ∃ k fs, w.stack = k :: fs ∧ GoesOn { w with stack := fs } k out := by
  cases moves_of_play hplay with
  | holds hturn held hout =>
    subst hout
    exact Or.inl ⟨hturn, [], rfl⟩
  | calls hturn hop hg hout =>
    subst hout
    exact Or.inl ⟨hturn, step_grows ((step_call w hg hop).after rfl)⟩
  | goesOn hstack hgo => exact Or.inr ⟨_, _, hstack, hgo⟩

/-- An operation in flight is left alone by a move unless it is innermost and goes on. -/
theorem play_inside (hplay : w.play m = some out) {p : List (Frame α)} (hstack : w.stack = p ++ f :: s) :
    (∃ p', out.1.stack = p' ++ f :: s ∧ (p = [] → f.question?.isSome)) ∨
      (p = [] ∧ GoesOn { w with stack := s } f out) := by
  rcases play_cases hplay with ⟨hturn, q, hq⟩ | ⟨k, fs, hk, hgo⟩
  · refine Or.inl ⟨q ++ p, by rw [hq, hstack, List.append_assoc], ?_⟩
    rintro rfl
    simpa [isClientsTurn, pending?, hstack] using hturn
  · cases p with
    | nil =>
      obtain ⟨rfl, rfl⟩ := List.cons.inj (hk.symm.trans hstack)
      exact Or.inr ⟨rfl, hgo⟩
    | cons k' p =>
      obtain ⟨-, rfl⟩ := List.cons.inj (hk.symm.trans hstack)
      obtain ⟨q, hq⟩ := step_grows hgo.step
      exact Or.inl ⟨q ++ p, hq.trans (List.append_assoc ..).symm, by simp⟩

/-- Taking a hold and letting go of one change nothing else. -/
theorem held_of_hold {t : Handle} (hplay : w.play (.hold t) = some out) :
    ∃ held, out = ({ w with held := held }, []) := by
  dsimp only [play] at hplay
  split at hplay
  case isTrue => exact ⟨_, (Option.some.inj hplay).symm⟩
  case isFalse => cases hplay

theorem held_of_drop {t : Handle} (hplay : w.play (.drop t) = some out) :
    ∃ held, out = ({ w with held := held }, []) := by
  dsimp only [play] at hplay
  split at hplay
  case isTrue => exact ⟨_, (Option.some.inj hplay).symm⟩
  case isFalse => cases hplay

/-- A move that is no answer goes on top of what is in flight, or the innermost operation goes on by itself. -/
theorem play_onTop (hm : ∀ a, m ≠ .answer a) (hplay : w.play m = some out) :
    (∃ p, out.1.stack = p ++ w.stack) ∨ w.tick? = some out := by
  cases m with
  | call r op =>
    obtain ⟨-, hop, g, hg, rfl⟩ := calls_of_play hplay
    exact Or.inl (step_grows ((step_call w hg hop).after rfl))
  | answer a => exact absurd rfl (hm a)
  | tick => exact Or.inr hplay
  | hold t =>
    obtain ⟨held, rfl⟩ := held_of_hold hplay
    exact Or.inl ⟨[], rfl⟩
  | drop t =>
    obtain ⟨held, rfl⟩ := held_of_drop hplay
    exact Or.inl ⟨[], rfl⟩

/-- A move that calls nothing takes or drops a hold, or the innermost operation goes on. -/
theorem play_callless (hm : ∀ r op, m ≠ .call r op) (hplay : w.play m = some out) :
    (∃ held, out = ({ w with held := held }, [])) ∨
      ∃ f fs, w.stack = f :: fs ∧ GoesOn { w with stack := fs } f out := by
  cases m with
  | call r op => exact absurd rfl (hm r op)
  | answer a =>
    obtain ⟨f, fs, q, o, hs, hq, ho, rfl⟩ := answered_of_play hplay
    exact Or.inr ⟨f, fs, hs, Or.inl ⟨q, a, o, hq, ho, rfl⟩⟩
  | tick =>
    dsimp only [play, tick?] at hplay
    split at hplay
    · cases hplay
    · rename_i f fs hs
      exact Or.inr ⟨f, fs, hs, Or.inr hplay⟩
  | hold t => exact Or.inl (held_of_hold hplay)
  | drop t => exact Or.inl (held_of_drop hplay)

theorem isClientsTurn_eq {w' : World α} (hs : w'.stack = w.stack) : w'.isClientsTurn = w.isClientsTurn := by
  rw [isClientsTurn, isClientsTurn, pending?, pending?, hs]

/-- In the client's turn, what is innermost awaits an answer. -/
theorem question_of_turn (hturn : w.isClientsTurn = true) (hstack : w.stack = f :: s) :
    ∃ q, f.question? = some q ∧ w.pending? = some q := by
  have hpending : w.pending? = f.question? := by
    rw [pending?, hstack]
    rfl
  rw [isClientsTurn, hstack, List.isEmpty_cons, Bool.false_or, hpending] at hturn
  obtain ⟨q, hq⟩ := Option.isSome_iff_exists.mp hturn
  exact ⟨q, hq, hpending.trans hq⟩

/-- In the client's turn, what starts is no part of another operation. -/
theorem not_loop_of_turn (hturn : w.isClientsTurn = true) : w.stack.head?.any Frame.isLoop = false := by
  cases hw : w.stack with
  | nil => rfl
  | cons f fs =>
    simp only [isClientsTurn, pending?, hw, List.isEmpty_cons, Bool.false_or, List.head?_cons, Option.bind_some] at hturn
    cases f <;> first | rfl | cases hturn

theorem stack_finish (w : World α) (reply : Reply α) : (w.finish reply).1.stack = w.stack := by
  unfold finish
  split <;> rfl

/-- So what ends then returns, and nothing changes. -/
theorem finish_eq (hturn : w.isClientsTurn = true) {reply : Reply α} (hreply : ∀ t, reply ≠ .published t) :
    w.finish reply = (w, [.returned reply]) := by
  unfold finish
  rw [not_loop_of_turn hturn]
  cases reply with
  | published t => exact absurd rfl (hreply t)
  | _ => rfl

theorem said_of_conclude (hturn : w.isClientsTurn = true) (r : Nat) (h : Handle) (b : BundleId) (ref : Reference)
    (o : Option α) : (w.conclude r h (.got b ref o)).2 = [.got r b ref o, .returned (.object o)] := by
  show [.got r b ref o] ++ (w.finish (.object o)).2 = _
  rw [finish_eq hturn (by simp)]
  rfl

theorem stack_conclude (w : World α) (r : Nat) (h : Handle) (e : Ending α) : (w.conclude r h e).1.stack = w.stack := by
  cases e with
  | withdrawn => exact stack_finish w (.flag true)
  | got b ref o => exact stack_finish w (.object o)
  | ungot => exact stack_finish w (.flag true)

/-- In the client's turn a call that is allowed is made. -/
theorem play_call {g : Registry α} (hturn : w.isClientsTurn = true) (hallows : w.allows op = true)
    (hg : w.registries[r]? = some g) : w.play (.call r op) = some (after [.called r op] (w.call r g op)) := by
  rw [play, hturn, hallows, Bool.true_and, if_pos rfl, hg]
  rfl

/-! ## Calls -/

/-- The call of `op` at registry `r`, followed by the moves `ms`, comes to its return with them. -/
structure Returns (w : World α) (r : Nat) (op : Operation α) (ms : List (Move α)) (out : Outcome α) (reply : Reply α) :
    Prop where
  run : w.run (.call r op :: ms) = some out
  inside : ∀ l, l <+: ms → l ≠ ms → ∀ o, w.run (.call r op :: l) = some o → w.stack.length < o.1.stack.length
  back : out.1.stack.length = w.stack.length
  reply : out.2.getLast? = some (.returned reply)

structure Lasts (w : World α) (r : Nat) (op : Operation α) (ms : List (Move α)) (out : Outcome α) : Prop where
  run : w.run (.call r op :: ms) = some out
  inside : ∀ l, l <+: ms → ∀ o, w.run (.call r op :: l) = some o → w.stack.length < o.1.stack.length

theorem run_singleton (hrun : w.run [m] = some out) : w.play m = some out := by
  obtain ⟨mid, last, hmid, hplay, rfl⟩ := run_concat [] hrun
  obtain rfl := Option.some.inj hmid
  exact hplay

/-- What holds once the call has placed its operation, and is kept by every move while it lasts, holds
    while it lasts. -/
theorem Lasts.induction {P : List (Move α) → Outcome α → Prop}
    (hcall : ∀ o, w.play (.call r op) = some o → w.stack.length < o.1.stack.length → P [] o)
    (hstep : ∀ l o m last, Lasts w r op l o → P l o → o.1.play m = some last →
      w.stack.length < last.1.stack.length → P (l ++ [m]) (last.1, o.2 ++ last.2))
    (hlasts : Lasts w r op ms out) : P ms out := by
  induction ms using List.reverseRecOn generalizing out with
  | nil => exact hcall out (run_singleton hlasts.run) (hlasts.inside [] (List.prefix_refl _) out hlasts.run)
  | append_singleton l m ih =>
    obtain ⟨mid, last, hmid, hplay, rfl⟩ := run_concat (_ :: l) hlasts.run
    have hmid' : Lasts w r op l mid := ⟨hmid, fun k hk => hlasts.inside k (hk.trans (List.prefix_append l [m]))⟩
    exact hstep l mid m last hmid' (ih hmid') hplay (hlasts.inside _ (List.prefix_refl _) (last.1, mid.2 ++ last.2) hlasts.run)

theorem run_of_play (hplay : w.play m = some out) : w.run [m] = some out := by
  simp [run, hplay]

/-- A prefix of moves and one more is one of the moves, or all of them. -/
theorem prefix_concat {l : List (Move α)} (hl : l <+: ms ++ [m]) : l <+: ms ∨ l = ms ++ [m] := by
  rw [List.prefix_concat_iff] at hl
  exact hl.symm

/-- What a call has placed lasts. -/
theorem lasts_of_play (hplay : w.play (.call r op) = some out) (hmore : w.stack.length < out.1.stack.length) :
    Lasts w r op [] out := by
  refine ⟨run_of_play hplay, fun l hl o ho => ?_⟩
  obtain rfl := List.prefix_nil.mp hl
  obtain rfl := Option.some.inj ((run_of_play hplay).symm.trans ho)
  exact hmore

theorem returns_of_play (hplay : w.play (.call r op) = some out) (hback : out.1.stack.length = w.stack.length)
    (hreply : out.2.getLast? = some (.returned reply)) : Returns w r op [] out reply := by
  refine ⟨run_of_play hplay, fun l hl hne => ?_, hback, hreply⟩
  exact absurd (List.prefix_nil.mp hl) hne

/-- One more move, after which the call is still in flight. -/
theorem Lasts.next (hlasts : Lasts w r op ms out) {last : Outcome α} (hplay : out.1.play m = some last)
    (hmore : w.stack.length < last.1.stack.length) : Lasts w r op (ms ++ [m]) (last.1, out.2 ++ last.2) := by
  have hrun := run_extend hlasts.run hplay
  refine ⟨hrun, fun l hl o ho => ?_⟩
  rcases prefix_concat hl with hl | rfl
  · exact hlasts.inside l hl o ho
  · obtain rfl := Option.some.inj (hrun.symm.trans ho)
    exact hmore

/-- One more move, with which it returns. -/
theorem Lasts.ends (hlasts : Lasts w r op ms out) {last : Outcome α} (hplay : out.1.play m = some last)
    (hback : last.1.stack.length = w.stack.length) (hreply : last.2.getLast? = some (.returned reply)) :
    Returns w r op (ms ++ [m]) (last.1, out.2 ++ last.2) reply := by
  refine ⟨run_extend hlasts.run hplay, fun l hl hne o ho => ?_, hback, ?_⟩
  · rcases prefix_concat hl with hl | rfl
    · exact hlasts.inside l hl o ho
    · exact absurd rfl hne
  · rw [List.getLast?_append, hreply]
    rfl

/-- A call returns at once, or it lasts until its last move. -/
theorem Returns.cases (hret : Returns w r op ms out reply) : (ms = [] ∧ w.play (.call r op) = some out) ∨
    ∃ l m mid last, ms = l ++ [m] ∧ Lasts w r op l mid ∧ mid.1.play m = some last ∧ out = (last.1, mid.2 ++ last.2) := by
  rcases List.eq_nil_or_concat ms with rfl | ⟨l, m, rfl⟩
  · exact Or.inl ⟨rfl, run_singleton hret.run⟩
  · rw [List.concat_eq_append] at hret ⊢
    obtain ⟨mid, last, hmid, hplay, rfl⟩ := run_concat (_ :: l) hret.run
    refine Or.inr ⟨l, m, mid, last, rfl, ⟨hmid, fun k hk o ho => ?_⟩, hplay, rfl⟩
    refine hret.inside k (hk.trans (List.prefix_append l [m])) ?_ o ho
    rintro rfl
    have hlength := hk.length_le
    rw [List.length_append, List.length_singleton] at hlength
    omega

/-- What holds once the call has placed its operation, and is kept by every move while it lasts, holds
    before its last move. A call that places nothing returns at once. -/
theorem Returns.induction (hret : Returns w r op ms out reply) {P : Outcome α → Prop}
    (hcall : ∀ o, w.play (.call r op) = some o → w.stack.length < o.1.stack.length → P o)
    (hstep : ∀ o m last, P o → o.1.play m = some last → w.stack.length < last.1.stack.length →
      P (last.1, o.2 ++ last.2)) :
    w.play (.call r op) = some out ∨
      ∃ mid m last, P mid ∧ mid.1.play m = some last ∧ out = (last.1, mid.2 ++ last.2) := by
  rcases hret.cases with ⟨-, hplay⟩ | ⟨l, m, mid, last, -, hlasts, hplay, rfl⟩
  · exact Or.inl hplay
  · refine Or.inr ⟨mid, m, last, ?_, hplay, rfl⟩
    exact hlasts.induction (P := fun _ o => P o) hcall fun _ o m last _ hP => hstep o m last hP

/-- A call whose operation stays in flight until it returns, as one frame after the other: what holds
    when it is placed and is kept by the moves above it and by its own, holds when it goes on for
    the last time. -/
theorem Returns.frame_induction (hret : Returns w r op ms out reply) {Q : List (Frame α) → Frame α → Outcome α → Prop}
    (hcall : ∀ o, w.play (.call r op) = some o → w.stack.length < o.1.stack.length →
      ∃ f, o.1.stack = f :: w.stack ∧ Q [] f o)
    (habove : ∀ o m last p p' f, o.1.stack = p ++ f :: w.stack → Q p f o → o.1.play m = some last →
      (p = [] → f.question?.isSome) → Q p' f (last.1, o.2 ++ last.2))
    (hgoes : ∀ o m last f, o.1.stack = f :: w.stack → Q [] f o → o.1.play m = some last →
      GoesOn { o.1 with stack := w.stack } f last → w.stack.length < last.1.stack.length →
      ∃ f', last.1.stack = f' :: w.stack ∧ Q [] f' (last.1, o.2 ++ last.2)) :
    w.play (.call r op) = some out ∨
      ∃ mid f last, mid.1.stack = f :: w.stack ∧ Q [] f mid ∧ GoesOn { mid.1 with stack := w.stack } f last ∧
        out = (last.1, mid.2 ++ last.2) := by
  have hmoves := hret.induction (P := fun o => ∃ p f, o.1.stack = p ++ f :: w.stack ∧ Q p f o) ?hfirst ?hnext
  case hfirst =>
    intro o hplay hmore
    obtain ⟨f, hf, hq⟩ := hcall o hplay hmore
    exact ⟨[], f, hf, hq⟩
  case hnext =>
    rintro o m last ⟨p, f, hstack, hq⟩ hplay hmore
    rcases play_inside hplay hstack with ⟨p', hstack', hawait⟩ | ⟨rfl, hgo⟩
    · exact ⟨p', f, hstack', habove o m last p p' f hstack hq hplay hawait⟩
    · obtain ⟨f', hf', hq'⟩ := hgoes o m last f hstack hq hplay hgo hmore
      exact ⟨[], f', hf', hq'⟩
  rcases hmoves with hplay | ⟨mid, m, last, ⟨p, f, hstack, hq⟩, hplay, rfl⟩
  · exact Or.inl hplay
  · rcases play_inside hplay hstack with ⟨p', hstack', -⟩ | ⟨rfl, hgo⟩
    · -- The operation would still be in flight at the return.
      have hback := hret.back
      rw [show last.1.stack = _ from hstack', List.length_append, List.length_cons] at hback
      omega
    · exact Or.inr ⟨mid, f, last, hstack, hq, hgo, rfl⟩

theorem Returns.isClientsTurn (hret : Returns w r op ms out reply) : w.isClientsTurn = true := by
  obtain ⟨o, hplay, -⟩ := Option.bind_eq_some_iff.mp hret.run
  exact (calls_of_play hplay).1

def returns (w : World α) (r : Nat) (op : Operation α) (ms : List (Move α)) (passes : Outcome α → Bool) : Bool :=
  (w.run (.call r op :: ms)).any (fun out => out.1.stack.length == w.stack.length && passes out) &&
    ms.inits.all fun l => l.length == ms.length ||
      (w.run (.call r op :: l)).all fun o => decide (w.stack.length < o.1.stack.length)

theorem returns_of_all {passes : Outcome α → Bool} (h : w.returns r op ms passes = true) :
    ∃ out, passes out = true ∧ ∀ reply, out.2.getLast? = some (.returned reply) → Returns w r op ms out reply := by
  obtain ⟨hany, hinits⟩ := Bool.and_eq_true_iff.mp h
  obtain ⟨out, hrun, hout⟩ := (Option.any_eq_true _ _).mp hany
  obtain ⟨hback, hpasses⟩ := Bool.and_eq_true_iff.mp hout
  refine ⟨out, hpasses, fun reply hreply => ⟨hrun, fun l hl hne o ho => ?_, beq_iff_eq.mp hback, hreply⟩⟩
  have hone := List.all_eq_true.mp hinits l ((List.mem_inits ..).mpr hl)
  rw [ho, Option.all_some] at hone
  rcases Bool.or_eq_true_iff.mp hone with hlength | hmore
  · exact absurd (hl.eq_of_length (beq_iff_eq.mp hlength)) hne
  · exact of_decide_eq_true hmore

end World

end Switchboard
