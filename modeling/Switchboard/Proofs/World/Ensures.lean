/-
  Switchboard.Proofs.World.Ensures — what a call comes to when nothing calls back in.

  A client whose sinks, filters and factories call nothing leaves a call little choice: the
  operation goes on by itself or with an answer until it returns. `Ensures` says that the call is
  made, never gets stuck and does return, whatever such a client answers, and what it then came
  to. `Returns` by contrast is about calls that came to their return; there an ensured call came
  to what is ensured (`Ensures.of_returns`), and while it lasted to what is to hold in between
  (`Ensures.of_lasts`).

  While it answers, the client may take and drop holds. So what comes of a call is the same for
  all holds in between (`Arrives.inside`).
-/

import Switchboard.Proofs.World.Call

namespace Switchboard

variable {α : Type}

def goesBack (h : Handle) (d : BundleId × α) : List (Occurrence α) :=
  [.asked (.takeBack h d.1 d.2), .answered (.takeBack h d.1 d.2) .done]

def Move.goesOn (answers : Answer α → Prop) : Move α → Prop
  | .tick => True
  | .answer a => answers a
  | _ => False

def Move.callsNothing (answers : Answer α → Prop) : Move α → Prop
  | .call .. => False
  | .answer a => answers a
  | _ => True

def Occurrence.question? : Occurrence α → Option (Question α)
  | asked q => some q
  | _ => none

def questions (os : List (Occurrence α)) : List (Question α) := os.filterMap Occurrence.question?

theorem questions_append (os os' : List (Occurrence α)) : questions (os ++ os') = questions os ++ questions os' :=
  List.filterMap_append

namespace World

variable {w : World α} {f : Frame α} {s : List (Frame α)} {out : Outcome α} {os : List (Occurrence α)} {m : Move α}
  {ms : List (Move α)} {r : Nat} {op : Operation α} {reply : Reply α} {depth : Nat} {answers : Answer α → Prop}
  {I : World α → Prop} {P Q : Outcome α → Prop}

/-- From here, an operation in flight above `depth` frames goes on until they are the innermost
    again, with any of these answers; then `Q` holds, and until then `I`. -/
inductive Arrives (answers : Answer α → Prop) (depth : Nat) (I : World α → Prop) (Q : Outcome α → Prop) :
    Outcome α → Prop
  | back {p : Outcome α} (hdepth : p.1.stack.length = depth) (hq : Q p) : Arrives answers depth I Q p
  | inside {p : Outcome α} (hdepth : depth < p.1.stack.length) (hinv : ∀ held, I { p.1 with held := held })
      (hready : ∀ held, ∃ m out, m.goesOn answers ∧ World.play { p.1 with held := held } m = some out)
      (hgoes : ∀ held m out, m.goesOn answers → World.play { p.1 with held := held } m = some out →
        Arrives answers depth I Q (out.1, p.2 ++ out.2)) : Arrives answers depth I Q p

/-- If its call backs call nothing and give these answers, the call of `op` at registry `r` returns
    and comes to `Q`, and `I` holds until then. -/
def Ensures (w : World α) (answers : Answer α → Prop) (r : Nat) (op : Operation α) (I : World α → Prop)
    (Q : Outcome α → Prop) : Prop :=
  ∃ out, w.play (.call r op) = some out ∧ Arrives answers w.stack.length I Q out

def EnsuresAll (answers : Answer α → Prop) (r : Nat) : World α → List (Operation α) → (Outcome α → Prop) → Prop
  | w, [], Q => Q (w, [])
  | w, op :: ops, Q => w.Ensures answers r op (fun _ => True) fun out =>
      EnsuresAll answers r out.1 ops fun last => Q (last.1, out.2 ++ last.2)

/-! ## What is ensured happens -/

theorem Arrives.imp (hpq : ∀ p, P p → Q p) {p : Outcome α} (ha : Arrives answers depth I P p) :
    Arrives answers depth I Q p := by
  induction ha with
  | back hdepth hp => exact .back hdepth (hpq _ hp)
  | inside hdepth hinv hready _ ih => exact .inside hdepth hinv hready ih

theorem Ensures.imp (hpq : ∀ p, P p → Q p) (he : w.Ensures answers r op I P) : w.Ensures answers r op I Q := by
  obtain ⟨out, hplay, ha⟩ := he
  exact ⟨out, hplay, ha.imp hpq⟩

/-- A move inside is a hold, or the operation goes on. -/
theorem Arrives.play {p : Outcome α} (ha : Arrives answers depth I Q p) (hdepth : depth < p.1.stack.length)
    (hm : m.callsNothing answers) {held : List Handle} (hplay : World.play { p.1 with held := held } m = some out) :
    (∃ held', out = ({ p.1 with held := held' }, [])) ∨ Arrives answers depth I Q (out.1, p.2 ++ out.2) := by
  cases ha with
  | back hback => omega
  | inside _ _ _ hgoes =>
    cases m with
    | call => exact absurd hm id
    | tick => exact Or.inr (hgoes held .tick out trivial hplay)
    | answer a => exact Or.inr (hgoes held (.answer a) out hm hplay)
    | hold t =>
      obtain ⟨held', rfl⟩ := held_of_hold hplay
      exact Or.inl ⟨held', rfl⟩
    | drop t =>
      obtain ⟨held', rfl⟩ := held_of_drop hplay
      exact Or.inl ⟨held', rfl⟩

/-- An ensured call that is still in flight. -/
theorem Ensures.lasting (he : w.Ensures answers r op I Q) (hlasts : Lasts w r op ms out)
    (hquiet : ∀ m ∈ ms, m.callsNothing answers) : ∃ p held, Arrives answers w.stack.length I Q p ∧
      w.stack.length < p.1.stack.length ∧ out = ({ p.1 with held := held }, p.2) := by
  refine hlasts.induction (P := fun ms o => (∀ m ∈ ms, m.callsNothing answers) → ∃ p held,
    Arrives answers w.stack.length I Q p ∧ w.stack.length < p.1.stack.length ∧ o = ({ p.1 with held := held }, p.2))
    (fun o hplay hmore _ => ?_) (fun l o m last _ hP hplay hmore hl => ?_) hquiet
  · obtain ⟨o', hplay', ha⟩ := he
    obtain rfl := Option.some.inj (hplay'.symm.trans hplay)
    exact ⟨o', o'.1.held, ha, hmore, rfl⟩
  · obtain ⟨p, held, ha, hdepth, rfl⟩ := hP fun m hm => hl m (List.mem_append_left _ hm)
    rcases ha.play hdepth (hl m (List.mem_append_right _ (List.mem_singleton_self m))) hplay with ⟨held', rfl⟩ | ha'
    · exact ⟨p, held', ha, hdepth, by rw [List.append_nil]⟩
    · exact ⟨_, _, ha', hmore, rfl⟩

/-- Whenever nothing was called back, the call came to what is ensured. -/
theorem Ensures.of_returns (he : w.Ensures answers r op I Q) (hret : Returns w r op ms out reply)
    (hquiet : ∀ m ∈ ms, m.callsNothing answers) : Q out := by
  have hback : ∀ p, Arrives answers w.stack.length I Q p → p.1.stack.length = w.stack.length → Q p := by
    intro p ha hlength
    cases ha with
    | back _ hq => exact hq
    | inside hdepth => omega
  rcases hret.cases with ⟨-, hplay⟩ | ⟨l, m, mid, last, rfl, hlasts, hplay, rfl⟩
  · obtain ⟨o, hplay', ha⟩ := he
    obtain rfl := Option.some.inj (hplay'.symm.trans hplay)
    exact hback _ ha hret.back
  · obtain ⟨p, held, ha, hdepth, rfl⟩ := he.lasting hlasts fun m hm => hquiet m (List.mem_append_left _ hm)
    rcases ha.play hdepth (hquiet m (List.mem_append_right _ (List.mem_singleton_self m))) hplay with ⟨held', rfl⟩ | ha'
    · have hlength : p.1.stack.length = w.stack.length := hret.back
      omega
    · exact hback _ ha' hret.back

/-- What holds in between holds while the call lasts. -/
theorem Ensures.of_lasts (he : w.Ensures answers r op I Q) (hlasts : Lasts w r op ms out)
    (hquiet : ∀ m ∈ ms, m.callsNothing answers) : I out.1 := by
  obtain ⟨p, held, ha, hdepth, rfl⟩ := he.lasting hlasts hquiet
  cases ha with
  | back hback => omega
  | inside _ hinv => exact hinv held

/-! ## How an operation goes on -/

theorem advance?_of_question {q : Question α} (hq : f.question? = some q) : w.advance? f = none := by
  cases f with
  | releasing r h due e =>
    cases due with
    | nil => cases hq
    | cons => rfl
  | draining => cases hq
  | settling => cases hq
  | ungetting => cases hq
  | unregistering => cases hq
  | _ => rfl

/-- It goes on by itself. -/
theorem arrives_advance (hdepth : depth ≤ w.stack.length) (hq : f.question? = none)
    (hinv : ∀ held, I { w with stack := f :: w.stack, held := held })
    (hnext : ∀ held, ∃ out, World.advance? { w with held := held } f = some out ∧
      Arrives answers depth I Q (out.1, os ++ out.2)) :
    Arrives answers depth I Q ({ w with stack := f :: w.stack }, os) := by
  refine .inside (Nat.lt_succ_of_le hdepth) hinv (fun held => ?_) fun held m out hm hplay => ?_
  · obtain ⟨out, hout, -⟩ := hnext held
    exact ⟨.tick, out, trivial, hout⟩
  · obtain ⟨out', hout', ha⟩ := hnext held
    cases m with
    | tick =>
      obtain rfl := Option.some.inj (hout'.symm.trans hplay)
      exact ha
    | answer a =>
      obtain ⟨k, fs, q, o, hs, hk, -, -⟩ := answered_of_play hplay
      obtain ⟨rfl, rfl⟩ := List.cons.inj hs
      rw [hq] at hk
      cases hk
    | _ => exact absurd hm id

/-- It goes on with an answer. -/
theorem arrives_answer {q : Question α} (hdepth : depth ≤ w.stack.length) (hq : f.question? = some q)
    (hinv : ∀ held, I { w with stack := f :: w.stack, held := held })
    (hready : ∀ held, ∃ a, answers a ∧ (World.resume? { w with held := held } f a).isSome)
    (hnext : ∀ held a out, answers a → World.resume? { w with held := held } f a = some out →
      Arrives answers depth I Q (out.1, os ++ .answered q a :: out.2)) :
    Arrives answers depth I Q ({ w with stack := f :: w.stack }, os) := by
  refine .inside (Nat.lt_succ_of_le hdepth) hinv (fun held => ?_) fun held m out hm hplay => ?_
  · obtain ⟨a, ha, hsome⟩ := hready held
    obtain ⟨out, hout⟩ := Option.isSome_iff_exists.mp hsome
    refine ⟨.answer a, after [.answered q a] out, ha, ?_⟩
    simp only [World.play, answer?, hq, hout]
    rfl
  · cases m with
    | tick => cases (advance?_of_question hq).symm.trans hplay
    | answer a =>
      obtain ⟨k, fs, q', o, hs, hk, ho, rfl⟩ := answered_of_play hplay
      obtain ⟨rfl, rfl⟩ := List.cons.inj hs
      obtain rfl := Option.some.inj (hq.symm.trans hk)
      exact hnext held a o hm ho
    | _ => exact absurd hm id

theorem after_after (os os' : List (Occurrence α)) (out : Outcome α) : after os (after os' out) = after (os ++ os') out := by
  simp only [World.after, List.append_assoc]

/-- It ends. -/
theorem arrives_finish (hturn : w.isClientsTurn = true) (hreply : ∀ t, reply ≠ .published t)
    (hq : Q (w, os ++ [.returned reply])) : Arrives answers w.stack.length I Q (after os (w.finish reply)) := by
  rw [finish_eq hturn hreply]
  exact .back rfl hq

/-- Objects go back one after the other, and then the operation comes to its end. -/
theorem arrives_releasing {h : Handle} {e : Ending α} (hdone : answers .done) (due : List (BundleId × α)) :
    ∀ (w : World α) (os : List (Occurrence α)), depth ≤ w.stack.length →
      (∀ held due, I { w with stack := .releasing r h due e :: w.stack, held := held }) →
      (∀ held, Arrives answers depth I Q
        (after (os ++ due.flatMap (goesBack h)) (World.conclude { w with held := held } r h e))) →
      Arrives answers depth I Q (after os (w.place (.releasing r h due e))) := by
  induction due with
  | nil =>
    intro w os hdepth hinv hend
    have hwait : Arrives answers depth I Q ({ w with stack := .releasing r h [] e :: w.stack }, os) := by
      refine arrives_advance hdepth rfl (fun held => hinv held []) fun held => ⟨_, rfl, ?_⟩
      have hend := hend held
      rwa [List.flatMap_nil, List.append_nil] at hend
    rw [World.after, place]
    simpa [Frame.question?] using hwait
  | cons d due ih =>
    intro w os hdepth hinv hend
    refine arrives_answer (q := .takeBack h d.1 d.2) hdepth rfl (fun held => hinv held (d :: due))
      (fun held => ⟨.done, hdone, rfl⟩) fun held a out _ hout => ?_
    cases a with
    | done =>
      obtain rfl := Option.some.inj hout
      have hrest := ih { w with held := held } (os ++ goesBack h d) hdepth (fun held' => hinv held') fun held' => by
        have hend := hend held'
        rwa [List.flatMap_cons, ← List.append_assoc] at hend
      have htold : ∀ asked : List (Occurrence α), os ++ goesBack h d ++ asked =
          os ++ [.asked (.takeBack h d.1 d.2)] ++ .answered (.takeBack h d.1 d.2) .done :: asked := by
        intro asked
        simp [goesBack]
      rw [World.after, htold] at hrest
      exact hrest
    | verdict => cases hout
    | supplied => cases hout

/-- The same, where only a factory gets objects back. -/
theorem arrives_release {h : Handle} {e : Ending α} (hdone : answers .done) {due : List (BundleId × α)}
    (hdepth : depth ≤ w.stack.length)
    (hinv : ∀ held due, I { w with stack := .releasing r h due e :: w.stack, held := held })
    (hend : ∀ held, Arrives answers depth I Q
      (after (os ++ (w.dueTo h due).flatMap (goesBack h)) (World.conclude { w with held := held } r h e))) :
    Arrives answers depth I Q (after os (w.release r h due e)) :=
  arrives_releasing hdone (w.dueTo h due) w os hdepth hinv hend

/-! ## One call after another -/

theorem EnsuresAll.imp {ops : List (Operation α)} : ∀ {w : World α} {P Q : Outcome α → Prop}, (∀ p, P p → Q p) →
    EnsuresAll answers r w ops P → EnsuresAll answers r w ops Q := by
  induction ops with
  | nil => exact fun hpq hp => hpq _ hp
  | cons op ops ih => exact fun hpq he => Ensures.imp (fun _ hrest => ih (fun _ => hpq _) hrest) he

def Leads (answers : Answer α → Prop) (r : Nat) (ops : List (Operation α)) (P Q : Outcome α → Prop) : Prop :=
  ∀ p, P p → EnsuresAll answers r p.1 ops fun out => Q (out.1, p.2 ++ out.2)

theorem leads_one (hcall : ∀ p, P p → p.1.Ensures answers r op (fun _ => True) fun out => Q (out.1, p.2 ++ out.2)) :
    Leads answers r [op] P Q := by
  intro p hp
  refine Ensures.imp (fun out hq => ?_) (hcall p hp)
  show Q (out.1, p.2 ++ (out.2 ++ []))
  rwa [List.append_nil]

theorem ensuresAll_append {ops ops' : List (Operation α)} : ∀ {w : World α} {Q : Outcome α → Prop},
    EnsuresAll answers r w ops (fun out => EnsuresAll answers r out.1 ops' fun last => Q (last.1, out.2 ++ last.2)) →
    EnsuresAll answers r w (ops ++ ops') Q := by
  induction ops with
  | nil => exact fun he => he
  | cons op ops ih =>
    intro w Q he
    refine Ensures.imp (fun out hrest => ih (hrest.imp fun mid hmid => hmid.imp fun last hlast => ?_)) he
    rwa [List.append_assoc] at hlast

theorem Leads.append {R : Outcome α → Prop} {ops ops' : List (Operation α)} (h : Leads answers r ops P R)
    (h' : Leads answers r ops' R Q) : Leads answers r (ops ++ ops') P Q := by
  intro p hp
  refine ensuresAll_append (EnsuresAll.imp (P := fun mid => R (mid.1, p.2 ++ mid.2)) (fun mid hmid => ?_) (h p hp))
  refine (h' _ hmid).imp fun last hlast => ?_
  rwa [List.append_assoc] at hlast

theorem Leads.imp {P' Q' : Outcome α → Prop} {ops : List (Operation α)} (h : Leads answers r ops P Q)
    (hp : ∀ p, P' p → P p) (hq : ∀ p, Q p → Q' p) : Leads answers r ops P' Q' :=
  fun p hp' => (h p (hp p hp')).imp fun _ => hq _

/-- Where each of the same calls leads from one stage to the next, all of them lead from the first to
    the last. -/
theorem leads_replicate {P : Nat → Outcome α → Prop} (n : Nat)
    (hstep : ∀ k, k < n → Leads answers r [op] (P k) (P (k + 1))) : Leads answers r (List.replicate n op) (P 0) (P n) := by
  induction n with
  | zero =>
    intro p hp
    show P 0 (p.1, p.2 ++ [])
    rwa [List.append_nil]
  | succ n ih =>
    rw [List.replicate_succ']
    exact (ih fun k hk => hstep k (by omega)).append (hstep n (by omega))

end World

end Switchboard
