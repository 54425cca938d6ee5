/-
  Switchboard.Proofs.World.Making — one object is made for an entry, and goes back when the entry goes.

  The first `get` of a pair makes the entry and asks the factory. While that `get` is in flight nobody
  else can ask, unless a call back does something about the pair (`Undisturbed`). So the life of an
  entry has stages: the factory is being asked, it has answered, its object is cached (`Stage`); each
  step keeps the stage or takes the next (`stage_step`), and the factory is not asked again.

  An object the factory made is cached until the entry goes, and goes back then, in the hand-over of
  what the flush or the drain took out (`Ends`). What a hand-over has in hand goes to the factory one
  after the other, each once (`hands_over`).
-/

import Mathlib.Data.List.Nodup
import Switchboard.Proofs.World.Lifetime
import Switchboard.Proofs.World.Lookup

namespace Switchboard

variable {α : Type} {b : BundleId} {ref : Reference}

/-! ## What passes between a pair and the factory -/

inductive Dealing (α : Type) where
  /-- A `get` of the pair asks the factory for an object, -/
  | asks
  /-- and this is what it makes. -/
  | gives (o : Option α)

namespace Occurrence

def isUseOf (b : BundleId) (ref : Reference) : Occurrence α → Bool
  | acquired _ c q => decide (c = b ∧ q = ref)
  | _ => false

def isAsking (h : Handle) (b : BundleId) : Occurrence α → Bool
  | asked (.supply t c) => decide (t = h ∧ c = b)
  | _ => false

def disturbs (b : BundleId) (ref : Reference) : Occurrence α → Bool
  | acquired _ c q | released _ c q _ | flushed _ c q => decide (c = b ∧ q = ref)
  | drained _ t _ => t == ref.target
  | _ => false

def supplied? : Occurrence α → Option (Option α)
  | answered (.supply ..) (.supplied o) => some o
  | _ => none

theorem matters_of_isUseOf {o : Occurrence α} (ho : o.isUseOf b ref = true) : o.matters = true := by
  cases o <;> first | rfl | cases ho

theorem matters_of_isAsking {h : Handle} {o : Occurrence α} (ho : o.isAsking h b = true) : o.matters = true := by
  cases o with
  | asked q => cases q <;> first | rfl | cases ho
  | _ => cases ho

theorem matters_of_supplied? {o : Occurrence α} {z : Option α} (ho : o.supplied? = some z) : o.matters = true := by
  cases o with
  | answered q a => cases q <;> first | rfl | cases ho
  | _ => cases ho

end Occurrence

theorem any_gist {p : Occurrence α → Bool} (hp : ∀ o, p o = true → o.matters = true) (os : List (Occurrence α)) :
    os.any p = (gist os).any p := by
  rw [gist, List.any_filter, Bool.eq_iff_iff, List.any_eq_true, List.any_eq_true]
  constructor
  · rintro ⟨o, ho, htrue⟩
    exact ⟨o, ho, by rw [hp o htrue, htrue]; rfl⟩
  · rintro ⟨o, ho, htrue⟩
    exact ⟨o, ho, (Bool.and_eq_true_iff.mp htrue).2⟩

theorem filterMap_gist (os : List (Occurrence α)) :
    os.filterMap Occurrence.supplied? = (gist os).filterMap Occurrence.supplied? := by
  rw [gist, List.filterMap_filter]
  refine List.filterMap_congr fun o _ => ?_
  cases hz : o.supplied? with
  | none => split <;> rfl
  | some z => rw [if_pos (Occurrence.matters_of_supplied? hz)]

namespace World

variable {w v : World α} {g g' : Registry α} {top : Option (Frame α)} {out last mid : Outcome α} {os : List (Occurrence α)}
  {ms : List (Move α)} {m : Move α} {u u' : Usage α} {ds : List (Dealing α)}

/-- The dealings of one move with what it tells: a `get` asks when it counts its use, and is told what the
    factory made when it is innermost. -/
def dealing (w : World α) (b : BundleId) (ref : Reference) (os : List (Occurrence α)) : List (Dealing α) :=
  (if os.any (·.isUseOf b ref) && os.any (·.isAsking ref.target b) then [.asks] else []) ++
    if w.stack.head?.any (·.isGetOf b ref) then (os.filterMap Occurrence.supplied?).map .gives else []

def dealings (w : World α) (b : BundleId) (ref : Reference) : List (Move α) → List (Dealing α)
  | [] => []
  | m :: ms =>
    match w.play m with
    | none => []
    | some out => w.dealing b ref out.2 ++ out.1.dealings b ref ms

theorem dealings_concat (ms : List (Move α)) (hrun : w.run ms = some mid) (hplay : mid.1.play m = some last) :
    w.dealings b ref (ms ++ [m]) = w.dealings b ref ms ++ mid.1.dealing b ref last.2 := by
  induction ms generalizing w mid with
  | nil =>
    obtain rfl := Option.some.inj hrun
    simp [dealings, hplay]
  | cons m' ms ih =>
    unfold run at hrun
    obtain ⟨⟨w', os'⟩, hplay', hrest⟩ := Option.bind_eq_some_iff.mp hrun
    obtain ⟨⟨w'', os''⟩, hrun', hout⟩ := Option.bind_eq_some_iff.mp hrest
    obtain rfl := Option.some.inj hout
    simp only [List.cons_append, dealings, hplay', ih hrun' hplay, List.append_assoc]

/-- What a factory makes is told to the innermost operation, which asked for it. -/
theorem supplied_of_step (hs : Step v top out) {z : Option α} (hz : z ∈ out.2.filterMap Occurrence.supplied?) :
    ∃ r h c q, top = some (.resolving r h c q) := by
  obtain ⟨o, hmem, ho⟩ := List.mem_filterMap.mp hz
  rcases hs.tells hmem (Occurrence.matters_of_supplied? ho) with ⟨q, rfl⟩ | htells
  · cases ho
  · cases htells with
    | answered => exact ⟨_, _, _, _, rfl⟩
    | _ => cases ho

/-- A step that counts no use of the pair and answers none of its gets deals with the factory for other pairs only. -/
theorem dealing_none (hs : Step v top out) (huse : (gist out.2).any (·.isUseOf b ref) = false)
    (htop : ∀ r h, top ≠ some (.resolving r h b ref)) : (v.onto top).dealing b ref out.2 = [] := by
  rw [dealing, any_gist (fun _ => Occurrence.matters_of_isUseOf) out.2, huse, Bool.false_and, if_neg Bool.false_ne_true,
    List.nil_append]
  split
  case isTrue hget =>
    cases hz : out.2.filterMap Occurrence.supplied? with
    | nil => rfl
    | cons z zs =>
      obtain ⟨r, h, c, q, rfl⟩ := supplied_of_step hs (hz ▸ List.mem_cons_self ..)
      have hpair : decide ((c, q) = (b, ref)) = true := hget
      obtain ⟨rfl, rfl⟩ := Prod.mk.inj (of_decide_eq_true hpair)
      exact absurd rfl (htop r h)
  case isFalse => rfl

/-! ## Handing over -/

/-- A hand-over to the factory of `h` is innermost. Whatever the factory brings about from then on, it takes back
    the first of what is due, then the next, each once. -/
def HandsOver (w : World α) (r : Nat) (h : Handle) (due : List (BundleId × α)) (e : Ending α) (s : List (Frame α)) :
    Prop :=
  w.stack = .releasing r h due e :: s ∧ ∀ ms out, w.run ms = some out →
    (∀ l, l <+: ms → ∀ o, w.run l = some o → s.length < o.1.stack.length) →
    ∃ done rest p, due = done ++ rest ∧ out.1.stack = p ++ .releasing r h rest e :: s ∧
      w.exchanges (s.length + 1) ms = done.map fun d => (.takeBack h d.1 d.2, .done)

theorem hands_over {r : Nat} {h : Handle} {due : List (BundleId × α)} {e : Ending α} {s : List (Frame α)}
    (hstack : w.stack = .releasing r h due e :: s) : w.HandsOver r h due e s := by
  refine ⟨hstack, fun ms => ?_⟩
  induction ms using List.reverseRecOn with
  | nil =>
    intro out hrun _
    obtain rfl := Option.some.inj hrun
    exact ⟨[], due, [], rfl, hstack, rfl⟩
  | append_singleton ms m ih =>
    intro out hrun hinside
    obtain ⟨mid, last, hmid, hplay, rfl⟩ := run_concat ms hrun
    have hmore := hinside _ (List.prefix_refl _) _ hrun
    obtain ⟨done, rest, p, hdue, hbelow, hasked⟩ := ih mid hmid fun l hl => hinside l (hl.trans (List.prefix_append ..))
    have hexchanges := exchanges_concat (n := s.length + 1) ms hmid hplay
    rw [hasked] at hexchanges
    -- A move that is not the factory's answer leaves the hand-over where it is.
    have hkept : ∀ p', last.1.stack = p' ++ .releasing r h rest e :: s → mid.1.exchange (s.length + 1) m = [] →
        ∃ done rest p, due = done ++ rest ∧ last.1.stack = p ++ .releasing r h rest e :: s ∧
          w.exchanges (s.length + 1) (ms ++ [m]) = done.map fun d => (.takeBack h d.1 d.2, .done) := by
      intro p' hp' hnone
      rw [hnone, List.append_nil] at hexchanges
      exact ⟨done, rest, p', hdue, hp', hexchanges⟩
    cases p with
    | cons k p =>
      rcases play_inside hplay hbelow with ⟨p', hp', -⟩ | ⟨hp, -⟩
      · refine hkept p' hp' (exchange_of_ne ?_)
        rw [hbelow, List.length_append, List.length_cons, List.length_cons]
        omega
      · cases hp
    | nil =>
      have hbelow : mid.1.stack = .releasing r h rest e :: s := hbelow
      by_cases hm : ∀ a, m ≠ .answer a
      · rcases play_onTop hm hplay with ⟨p', hp'⟩ | htick
        · rw [hbelow] at hp'
          exact hkept p' hp' (exchange_of_not_answer hm)
        · -- With nothing left the hand-over would be over.
          rw [tick?, hbelow] at htick
          cases rest with
          | nil =>
            obtain rfl := Option.some.inj htick
            rw [stack_conclude] at hmore
            exact absurd hmore (Nat.lt_irrefl _)
          | cons d rest => cases htick
      · obtain ⟨a, rfl⟩ := not_forall_not.mp hm
        obtain ⟨k, fs, q, o, hs, hq, ho, rfl⟩ := answered_of_play hplay
        obtain ⟨rfl, rfl⟩ := List.cons.inj (hs.symm.trans hbelow)
        cases rest with
        | nil => cases hq
        | cons d rest =>
          cases a with
          | done =>
            obtain rfl := Option.some.inj ho
            have hanswer : mid.1.exchange (fs.length + 1) (.answer .done) = [(.takeBack h d.1 d.2, .done)] := by
              rw [exchange, pending?, hbelow]
              exact if_pos rfl
            rw [hanswer] at hexchanges
            refine ⟨done ++ [d], rest, [], by simpa using hdue, rfl, ?_⟩
            rw [hexchanges, List.map_append]
            rfl
          | verdict => cases ho
          | supplied => cases ho

/-! ## Stages -/

/-- Where the making of an object for the entry `u` stands, and what passed between the pair and the factory. -/
inductive Stage (w : World α) (b : BundleId) (ref : Reference) (u : Usage α) : List (Dealing α) → Prop
  /-- The factory is being asked, or has called what is in flight above. -/
  | asked {r : Nat} {p s : List (Frame α)} (hstack : w.stack = p ++ .resolving r ref.target b ref :: s)
      (hp : gets p b ref = 0) (hs : gets s b ref = 0) (hnone : u.object = none) (hone : u.count = 1) :
      Stage w b ref u [.asks]
  | answered {r : Nat} {z : Option α} {s : List (Frame α)}
      (hstack : w.stack = .settling r ref.target b ref true z :: s) (hs : gets s b ref = 0) (hnone : u.object = none)
      (hone : u.count = 1) : Stage w b ref u [.asks, .gives z]
  | cached {x : α} (hsome : u.object = some x)
      (hgets : ∀ f ∈ w.stack, f.isGetOf b ref = true → ∃ r o, f = .settling r ref.target b ref false o) :
      Stage w b ref u [.asks, .gives (some x)]

/-- While a `get` of the pair is in flight, nobody else takes or gives back a use of it, and its registration is
    not drained. -/
def Calm (w : World α) (b : BundleId) (ref : Reference) (os : List (Occurrence α)) : Prop :=
  0 < w.inFlight b ref → ∀ t ∈ os, t.disturbs b ref = false

/-- How the life of an entry ends, which was made for a `get` that dealt with the factory so. -/
inductive Ends (w : World α) (b : BundleId) (ref : Reference) (last : Outcome α) : List (Dealing α) → Prop
  /-- The factory made nothing, and nothing goes back. -/
  | barren {s : List (Frame α)} (htold : .decided 0 b ref none ∈ last.2)
      (hback : last.1.stack = .releasing 0 ref.target [] (.got b ref none) :: s) : Ends w b ref last [.asks, .gives none]
  | flushed {x : α} {s : List (Frame α)} (htold : .flushed 0 b ref ∈ last.2)
      (hasked : .asked (.takeBack ref.target b x) ∈ last.2)
      (hback : last.1.HandsOver 0 ref.target [(b, x)] .ungot s) : Ends w b ref last [.asks, .gives (some x)]
  /-- The registration is drained. The object goes back among those that were cached for other pairs. -/
  | drained {x : α} {n : Nat} {g : Registry α} {ps qs : List (BundleId × Nat)} {s : List (Frame α)}
      (hg : w.registries[0]? = some g) (hothers : (b, ref.id) ∉ ps ++ qs) (htold : .drained 0 ref.target n ∈ last.2)
      (hback : last.1.HandsOver 0 ref.target
        (ps.flatMap g.ledger.cachedAt ++ (b, x) :: qs.flatMap g.ledger.cachedAt) .withdrawn s) :
      Ends w b ref last [.asks, .gives (some x)]

theorem isGetOf_of_gets {fs : List (Frame α)} (hgets : gets fs b ref = 0) {f : Frame α} (hf : f ∈ fs) :
    f.isGetOf b ref = false := by
  simpa using List.countP_eq_zero.mp hgets f hf

/-- What a `get` has still to be told, it has no use for at the top of a step about another pair. -/
theorem not_resolving_of_gets (htop : gets top.toList b ref = 0) (r : Nat) (h : Handle) :
    top ≠ some (.resolving r h b ref) := by
  rintro rfl
  rw [Option.toList_some, gets_single rfl] at htop
  cases htop

theorem no_use_of_silent (hsilent : Silent os b ref) : (gist os).any (·.isUseOf b ref) = false := by
  rw [List.any_eq_false]
  intro o ho huse
  have hconcerns := hsilent o (List.mem_filter.mp ho).1
  cases o with
  | acquired r c q => exact absurd huse (by simpa [Occurrence.concerns, Occurrence.isUseOf] using hconcerns)
  | _ => cases huse

theorem no_use_of_asks (f : Frame α) : (gist f.asks).any (·.isUseOf b ref) = false := by
  rw [List.any_eq_false]
  intro o ho
  obtain ⟨q, -, rfl⟩ := List.mem_map.mp (List.mem_filter.mp ho).1
  exact Bool.false_ne_true

theorem Calm.undisturbed (hcalm : Calm w b ref os) (hin : 0 < w.inFlight b ref) {t : Occurrence α}
    {os' : List (Occurrence α)} (hos : gist os = t :: os') : t.disturbs b ref = false :=
  hcalm hin t (mem_of_gist hos)

theorem dealing_supplied {r : Nat} {h : Handle} {z : Option α}
    (hos : gist os = [.answered (.supply ref.target b) (.supplied z)]) :
    (v.onto (some (.resolving r h b ref))).dealing b ref os = [.gives z] := by
  have huse : os.any (·.isUseOf b ref) = false := by
    rw [any_gist (fun _ => Occurrence.matters_of_isUseOf), hos]
    rfl
  have hhead : (v.onto (some (.resolving r h b ref))).stack.head?.any (·.isGetOf b ref) = true :=
    isGetOf_of_getting? (α := α) (f := .resolving r h b ref) rfl
  rw [dealing, huse, hhead, filterMap_gist, hos]
  rfl

/-! ### From stage to stage -/

def Proceeds (v : World α) (top : Option (Frame α)) (g' : Registry α) (b : BundleId) (ref : Reference)
    (ds : List (Dealing α)) (out : Outcome α) : Prop :=
  (∃ u', g'.ledger.usage? b ref.id = some u' ∧ Stage out.1 b ref u' (ds ++ (v.onto top).dealing b ref out.2)) ∨
    g'.ledger.usage? b ref.id = none ∧ Ends (v.onto top) b ref out (ds ++ (v.onto top).dealing b ref out.2)

theorem Stage.asked_step {r : Nat} {p s : List (Frame α)} (hs : Step v top out) (hp : PairStep v g g' b ref top out)
    (hcalm : Calm (v.onto top) b ref out.2) (hstack : (v.onto top).stack = p ++ .resolving r ref.target b ref :: s)
    (hgp : gets p b ref = 0) (hgs : gets s b ref = 0) (hu : g.ledger.usage? b ref.id = some u) (hnone : u.object = none)
    (hone : u.count = 1) : Proceeds v top g' b ref [.asks] out := by
  have hin : 0 < (v.onto top).inFlight b ref := by
    rw [inFlight, hstack, List.countP_append, List.countP_cons, isGetOf_of_getting? rfl, if_pos rfl]
    omega
  have hstack : top.toList ++ v.stack = p ++ .resolving r ref.target b ref :: s := hstack
  cases hp with
  | @elsewhere _ _ q htop hq hgq hsame hsilent =>
    left
    refine ⟨u, hsame.trans hu, ?_⟩
    rw [dealing_none hs (no_use_of_silent hsilent) (not_resolving_of_gets htop), List.append_nil]
    cases top with
    | none =>
      have hout : out.1.stack = (q ++ p) ++ .resolving r ref.target b ref :: s := by
        rw [hq, show v.stack = _ from hstack, List.append_assoc]
      refine .asked hout ?_ hgs hnone hone
      rw [gets_append, hgq, hgp]
    | some f =>
      cases p with
      | nil =>
        obtain ⟨rfl, -⟩ := List.cons.inj hstack
        exact absurd rfl (not_resolving_of_gets htop r ref.target)
      | cons k p =>
        obtain ⟨rfl, hbelow⟩ := List.cons.inj hstack
        rw [gets_cons] at hgp
        have hout : out.1.stack = (q ++ p) ++ .resolving r ref.target b ref :: s := by
          rw [hq, show v.stack = p ++ _ from hbelow, List.append_assoc]
        refine .asked hout ?_ hgs hnone hone
        rw [gets_append]
        omega
  | acquire _ _ _ _ hos =>
    have hfalse := hcalm.undisturbed hin hos
    simp [Occurrence.disturbs] at hfalse
  | supplied z hq hsame hos =>
    left
    cases p with
    | cons k p =>
      obtain ⟨rfl, -⟩ := List.cons.inj hstack
      rw [gets_cons, isGetOf_of_getting? rfl] at hgp
      simp at hgp
    | nil =>
      obtain ⟨-, rfl⟩ := List.cons.inj hstack
      refine ⟨u, hsame.trans hu, ?_⟩
      rw [dealing_supplied hos]
      exact .answered hq hgs hnone hone
  | settle =>
    cases p with
    | cons k p =>
      obtain ⟨rfl, -⟩ := List.cons.inj hstack
      rw [gets_cons, isGetOf_of_getting? rfl] at hgp
      simp at hgp
    | nil => cases (List.cons.inj hstack).1
  | decrement _ _ _ _ _ _ hos =>
    have hfalse := hcalm.undisturbed hin hos
    simp [Occurrence.disturbs] at hfalse
  | flush _ _ _ _ _ _ _ _ hos =>
    have hfalse := hcalm.undisturbed hin hos
    simp [Occurrence.disturbs] at hfalse
  | drain _ _ _ hos =>
    have hfalse := hcalm.undisturbed hin hos
    simp [Occurrence.disturbs] at hfalse

/-- The dealings of a decision, of which there are none. -/
theorem dealing_settling {r : Nat} {h : Handle} {fresh : Bool} {o : Option α} {e : Settlement α}
    (hs : Step v (some (.settling r h b ref fresh o)) out)
    (hos : gist out.2 = .decided 0 b ref e.object :: gist (v.handOver b ref e).asks) :
    (v.onto (some (.settling r h b ref fresh o))).dealing b ref out.2 = [] := by
  refine dealing_none hs ?_ fun _ _ heq => by cases heq
  rw [hos, List.any_cons, no_use_of_asks]
  rfl

theorem handOver_nil {e : Settlement α} (hdue : e.due = []) :
    v.handOver b ref e = .releasing 0 ref.target [] (.got b ref e.object) := by
  rw [handOver, hdue, List.map_nil, dueTo, ite_self]

theorem Stage.answered_step {r : Nat} {z : Option α} (hs : Step v (some (.settling r ref.target b ref true z)) out)
    (hp : PairStep v g g' b ref (some (.settling r ref.target b ref true z)) out) (hvalid : v.isValid ref.target = true)
    (hgs : gets v.stack b ref = 0) (hu : g.ledger.usage? b ref.id = some u) (hnone : u.object = none)
    (hone : u.count = 1) : Proceeds v (some (.settling r ref.target b ref true z)) g' b ref [.asks, .gives z] out := by
  have htop : gets (some (Frame.settling r ref.target b ref true z)).toList b ref = 1 := gets_single rfl
  cases hp with
  | elsewhere hzero => omega
  | decrement hzero => omega
  | flush _ hzero => omega
  | @settle _ _ _ e hse _ hledger hq hos =>
    have hdealing := dealing_settling hs hos
    have htold : Occurrence.decided 0 b ref e.object ∈ out.2 := mem_of_gist hos
    rw [hvalid] at hse
    rw [Proceeds, hdealing, List.append_nil, hledger]
    cases hse with
    | cached _ hfresh => cases hfresh
    | missing _ _ _ hgone => cases hgone.symm.trans hu
    | existing _ _ _ hu' hc =>
      obtain rfl := Option.some.inj (hu.symm.trans hu')
      cases hnone.symm.trans hc
    | @kept x _ _ _ _ ho _ _ he =>
      subst ho
      refine Or.inl ⟨_, he.usage?_after, .cached rfl fun f hf hget => ?_⟩
      rw [hq] at hf
      rcases List.mem_cons.mp hf with rfl | hf
      · cases hget
      · rw [isGetOf_of_gets hgs hf] at hget
        cases hget
    | lost _ hgone => cases hgone.symm.trans hu
    | spent _ _ hmany _ he =>
      obtain rfl := Option.some.inj (hu.symm.trans he.usage?_before)
      omega
    | dropped hno _ _ he =>
      obtain rfl := Option.some.inj (hu.symm.trans he.usage?_before)
      have hz : z = none := hno.resolve_left (by simp)
      subst hz
      rw [handOver_nil (by simp [hnone])] at hq
      exact Or.inr ⟨he.usage?_after, .barren htold hq⟩

/-- A `get` that finds the object has no dealings with the factory. -/
theorem dealing_found {o : Option α} (hs : Step v none out)
    (hos : gist out.2 = .acquired 0 b ref :: gist (Frame.settling 0 ref.target b ref false o).asks) :
    (v.onto none).dealing b ref out.2 = [] := by
  have hasking : out.2.any (·.isAsking ref.target b) = false := by
    rw [any_gist (fun _ => Occurrence.matters_of_isAsking), hos]
    rfl
  rw [dealing, hasking, Bool.and_false, if_neg Bool.false_ne_true, List.nil_append]
  split
  case isTrue =>
    cases hz : out.2.filterMap Occurrence.supplied? with
    | nil => rfl
    | cons z zs =>
      obtain ⟨r, h, c, q, heq⟩ := supplied_of_step hs (hz ▸ List.mem_cons_self ..)
      cases heq
  case isFalse => rfl

/-- What a drain takes out, from the pair's point of view. -/
theorem drain_split {l : Ledger α} (hl : l.Sound) {x : α} (hu : l.usage? b ref.id = some u) (href : u.reference = ref)
    (hsome : u.object = some x) : ∃ ps qs : List (BundleId × Nat), (b, ref.id) ∉ ps ++ qs ∧
      (l.drain ref.target).objects = ps.flatMap l.cachedAt ++ (b, x) :: qs.flatMap l.cachedAt := by
  have hholds : (b, ref.id) ∈ l.holders ref.target := by
    refine (Ledger.mem_holders hl).mpr ⟨u, (Ledger.mem_of_usage? hu).1, ?_, ?_⟩
    · rw [href]
    · rw [href]
  obtain ⟨ps, qs, hsplit⟩ := List.append_of_mem hholds
  have hnodup := Ledger.nodup_holders hl ref.target
  rw [hsplit, List.nodup_middle] at hnodup
  have hown : l.cachedAt (b, ref.id) = [(b, x)] := by
    rw [Ledger.cachedAt, hu, Option.bind_some, hsome]
    rfl
  refine ⟨ps, qs, (List.nodup_cons.mp hnodup).1, ?_⟩
  rw [(Ledger.drain_spec hl ref.target).2.1, hsplit, List.flatMap_append, List.flatMap_cons, hown]
  rfl

theorem Stage.cached_step {x : α} (hs : Step v top out) (hp : PairStep v g g' b ref top out) (hl : g.ledger.Sound)
    (hg : v.registries[0]? = some g) (hvalid : v.isValid ref.target = true) (hfactory : v.isFactory ref.target = true)
    (hu : g.ledger.usage? b ref.id = some u) (href : u.reference = ref) (hsome : u.object = some x)
    (hgets : ∀ f ∈ (v.onto top).stack, f.isGetOf b ref = true → ∃ r o, f = .settling r ref.target b ref false o) :
    Proceeds v top g' b ref [.asks, .gives (some x)] out := by
  have hbelow : ∀ f ∈ v.stack, f.isGetOf b ref = true → ∃ r o, f = .settling r ref.target b ref false o :=
    fun f hf => hgets f (List.mem_append_right _ hf)
  have hnew : ∀ {p : List (Frame α)}, out.1.stack = p ++ v.stack → gets p b ref = 0 →
      ∀ f ∈ out.1.stack, f.isGetOf b ref = true → ∃ r o, f = .settling r ref.target b ref false o := by
    intro p hstack hgp f hf hget
    rw [hstack] at hf
    rcases List.mem_append.mp hf with hf | hf
    · rw [isGetOf_of_gets hgp hf] at hget
      cases hget
    · exact hbelow f hf hget
  cases hp with
  | elsewhere htop hq hgq hsame hsilent =>
    refine Or.inl ⟨u, hsame.trans hu, ?_⟩
    rw [dealing_none hs (no_use_of_silent hsilent) (not_resolving_of_gets htop)]
    exact .cached hsome (hnew hq hgq)
  | @acquire _ y f hx hf hq hafter hos =>
    have hframe : f = .settling 0 ref.target b ref false (some x) := by
      rw [hf, hu, Option.bind_some, hsome]
      rfl
    subst hframe
    rw [hu] at hafter
    refine Or.inl ⟨_, hafter, ?_⟩
    rw [dealing_found hs hos]
    refine .cached hsome fun k hk hget => ?_
    rw [hq] at hk
    rcases List.mem_cons.mp hk with rfl | hk
    · exact ⟨0, some x, rfl⟩
    · exact hbelow k hk hget
  | supplied => 
    -- No `get` of the pair waits for the factory while the entry caches.
    obtain ⟨r, o, heq⟩ := hgets _ (List.mem_cons_self ..) (isGetOf_of_getting? rfl)
    cases heq
  | @settle _ fresh _ e hse hcached hledger hq hos =>
    obtain ⟨r, o, heq⟩ := hgets _ (List.mem_cons_self ..) (isGetOf_of_getting? rfl)
    cases heq
    have hdealing := dealing_settling hs hos
    rw [hvalid] at hse
    rw [Proceeds, hdealing, List.append_nil, hledger]
    -- It came with an object of the entry, which is there still.
    obtain ⟨u', y, hu', hy, hoy⟩ := hcached rfl
    cases hse with
    | cached _ hfresh =>
      refine Or.inl ⟨u, hu, .cached hsome (hnew (p := [_]) hq rfl)⟩
    | missing _ hfresh => cases hfresh
    | existing _ hfresh => cases hfresh
    | kept _ hfresh => cases hfresh
    | lost hno => rcases hno with hno | hno <;> simp [hoy] at hno
    | spent hno => rcases hno with hno | hno <;> simp [hoy] at hno
    | dropped hno => rcases hno with hno | hno <;> simp [hoy] at hno
  | decrement htop hq hgq hu' hmany hafter hos =>
    obtain rfl := Option.some.inj (hu.symm.trans hu')
    refine Or.inl ⟨_, hafter, ?_⟩
    rw [dealing_none hs (by rw [hos]; rfl) (not_resolving_of_gets htop)]
    exact .cached hsome (hnew hq hgq)
  | @flush _ _ p _ k htop hk hq _ hu' _ hafter hos =>
    obtain rfl := Option.some.inj (hu.symm.trans hu')
    have hframe : k = some (.releasing 0 ref.target [(b, x)] .ungot) := by
      rw [hk, hsome]
      simp [hfactory]
    subst hframe
    refine Or.inr ⟨hafter, ?_⟩
    have hasked : Occurrence.asked (.takeBack ref.target b x) ∈ gist out.2 := by
      rw [hos]
      exact List.mem_cons_of_mem _ (List.mem_singleton.mpr rfl)
    rw [dealing_none hs (by rw [hos]; rfl) (not_resolving_of_gets htop)]
    exact .flushed (mem_of_gist hos) (List.mem_filter.mp hasked).1 (hands_over hq)
  | @drain _ f n hf hq hafter hos =>
    refine Or.inr ⟨hafter, ?_⟩
    obtain ⟨ps, qs, hothers, hobjects⟩ := drain_split hl hu href hsome
    rw [hf, dueTo, if_pos hfactory, hobjects] at hq
    have huse : (gist out.2).any (·.isUseOf b ref) = false := by
      rw [hos, List.any_cons, no_use_of_asks]
      rfl
    rw [dealing_none hs huse fun _ _ heq => by cases heq]
    exact .drained hg hothers (mem_of_gist hos) (hands_over hq)

theorem valid_of_entry (hst : Standing (v.onto top) g) (hu : g.ledger.usage? b ref.id = some u)
    (href : u.reference = ref) : v.isValid ref.target = true := by
  rw [← href]
  exact hst.valid b u (Ledger.mem_of_usage? hu).1

theorem Stage.step (hst : Standing (v.onto top) g) (hturn : top = none → (v.onto top).isClientsTurn = true)
    (hs : Step v top out) (hp : PairStep v g g' b ref top out) (hfactory : v.isFactory ref.target = true)
    (hu : g.ledger.usage? b ref.id = some u) (href : u.reference = ref) (hcalm : Calm (v.onto top) b ref out.2)
    (hstage : Stage (v.onto top) b ref u ds) : Proceeds v top g' b ref ds out := by
  have hvalid := valid_of_entry hst hu href
  cases hstage with
  | asked hstack hgp hgs hnone hone => exact asked_step hs hp hcalm hstack hgp hgs hu hnone hone
  | answered hstack hgs hnone hone =>
    obtain ⟨rfl, rfl⟩ := top_of_ready hturn hstack rfl
    exact answered_step hs hp hvalid hgs hu hnone hone
  | cached hsome hgets =>
    have hg : v.registries[0]? = some g := by
      rw [show v.registries = #[g] from hst.sole]
      rfl
    exact cached_step hs hp hst.sound.ledger hg hvalid hfactory hu href hsome hgets

/-- A `get` that decides while the entry is there keeps what it has, so that nothing goes back. -/
theorem Stage.due {r : Nat} {fresh : Bool} {o : Option α} {e : Settlement α} {l : Ledger α}
    (hstage : Stage (v.onto (some (.settling r ref.target b ref fresh o))) b ref u ds)
    (hu : l.usage? b ref.id = some u) (hs : Settles l b ref.id true fresh o e)
    (hcached : fresh = false → ∃ u x, l.usage? b ref.id = some u ∧ u.object = some x ∧ o = some x) : e.due = [] := by
  cases hstage with
  | @asked _ p _ hstack hgp =>
    have hstack : .settling r ref.target b ref fresh o :: v.stack = _ := hstack
    cases p with
    | nil => cases (List.cons.inj hstack).1
    | cons k p =>
      obtain ⟨rfl, -⟩ := List.cons.inj hstack
      rw [gets_cons, isGetOf_of_getting? rfl] at hgp
      simp at hgp
  | answered hstack _ hnone hone =>
    obtain ⟨hframe, -⟩ := List.cons.inj hstack
    cases hframe
    cases hs with
    | cached _ hfresh => cases hfresh
    | missing _ _ _ hgone => cases hgone.symm.trans hu
    | existing _ _ _ hu' hc =>
      obtain rfl := Option.some.inj (hu.symm.trans hu')
      cases hnone.symm.trans hc
    | kept => rfl
    | lost _ hgone => cases hgone.symm.trans hu
    | spent _ _ hmany _ he =>
      obtain rfl := Option.some.inj (hu.symm.trans he.usage?_before)
      omega
    | dropped hno _ _ he =>
      obtain rfl := Option.some.inj (hu.symm.trans he.usage?_before)
      have ho : o = none := hno.resolve_left (by simp)
      simp [ho, hnone]
  | cached _ hgets =>
    obtain ⟨r', o', heq⟩ := hgets _ (List.mem_cons_self ..) (isGetOf_of_getting? rfl)
    cases heq
    obtain ⟨u', y, -, -, hoy⟩ := hcached rfl
    cases hs with
    | cached => rfl
    | missing _ hfresh => cases hfresh
    | existing _ hfresh => cases hfresh
    | kept => rfl
    | lost hno => rcases hno with hno | hno <;> simp [hoy] at hno
    | spent hno => rcases hno with hno | hno <;> simp [hoy] at hno
    | dropped hno => rcases hno with hno | hno <;> simp [hoy] at hno

theorem Stage.kept (hs : Step v top out) (hp : PairStep v g g' b ref top out) (hvalid : v.isValid ref.target = true)
    (hu : g.ledger.usage? b ref.id = some u) (hstage : Stage (v.onto top) b ref u ds) {x : Option α}
    (hmem : .decided 0 b ref x ∈ out.2) : out.1.stack = .releasing 0 ref.target [] (.got b ref x) :: v.stack := by
  obtain ⟨h, fresh, o, due, rfl, hstack⟩ := decided_of_step hs hmem
  have htop : gets (some (Frame.settling 0 h b ref fresh o)).toList b ref = 1 := gets_single rfl
  cases hp with
  | elsewhere hzero => omega
  | decrement hzero => omega
  | flush _ hzero => omega
  | settle hse hcached _ hq =>
    rw [hvalid] at hse
    rw [handOver_nil (hstage.due hu hse hcached)] at hq
    have hending := (List.cons.inj (hstack.symm.trans hq)).1
    obtain ⟨-, -, -, hgot⟩ := Frame.releasing.inj hending
    rw [hq, hgot]

/-! ## From the first `get` to the last use -/

/-- No call back does anything about the pair: what is told while a `get` of it is in flight is calm. -/
def Undisturbed (w : World α) (b : BundleId) (ref : Reference) (ms : List (Move α)) : Prop :=
  ∀ l m, l ++ [m] <+: ms → ∀ mid o, w.run l = some mid → mid.1.play m = some o → Calm mid.1 b ref o.2

/-- One object is made for the entry at most, and it goes back once, when the entry goes. -/
structure MadeOnce (w : World α) (b : BundleId) (ref : Reference) (ms : List (Move α)) (out : Outcome α) : Prop where
  /-- The factory is asked once, by the `get` that makes the entry. -/
  asked : ms ≠ [] → w.dealings b ref ms = [.asks] ∨ ∃ z, w.dealings b ref ms = [.asks, .gives z]
  cached : ∀ u x, out.1.booked? b ref = some u → u.object = some x → w.dealings b ref ms = [.asks, .gives (some x)]
  /-- Until the entry goes, no decision sends an object back. -/
  kept : ∀ l m mid os o x, l ++ [m] <+: ms → w.run l = some (mid, os) → mid.play m = some o →
    .decided 0 b ref x ∈ o.2 → ∃ s, o.1.stack = .releasing 0 ref.target [] (.got b ref x) :: s
  ends : ∀ m last, ms ≠ [] → out.1.play m = some last → Undisturbed w b ref (ms ++ [m]) →
    last.1.booked? b ref = none → Ends out.1 b ref last (w.dealings b ref (ms ++ [m]))

theorem isFactory_step (hs : Step v top out) {h : Handle} (hfactory : v.isFactory h = true) : out.1.isFactory h = true := by
  obtain ⟨x, hx, hsource⟩ := (Option.any_eq_true _ _).mp hfactory
  obtain ⟨y, hy, horigin⟩ := origin_step hs hx
  have hsame : y.source = x.source := (congrArg Registration.source horigin :)
  rw [isFactory, hy, Option.any_some, hsame]
  exact hsource

theorem isFactory_run (hrun : w.run ms = some out) {h : Handle} (hfactory : w.isFactory h = true) :
    out.1.isFactory h = true :=
  run_induction (P := fun w _ => w.isFactory h = true) (fun _ _ _ _ hw hplay => by
    obtain ⟨v, top, rfl, -, hs⟩ := play_step hplay
    exact isFactory_step hs hw) ms w [] out hfactory hrun

/-- The `get` that makes the entry asks the factory. -/
theorem stage_first (hs : Step v top out) (hp : PairStep v g g' b ref top out)
    (hidle : (v.onto top).inFlight b ref = 0) (hfactory : v.isFactory ref.target = true)
    (hu : g.ledger.usage? b ref.id = none) (hu' : g'.ledger.usage? b ref.id = some u') :
    Stage out.1 b ref u' ((v.onto top).dealing b ref out.2) := by
  cases hp with
  | elsewhere _ _ _ hsame => cases (hsame.trans hu).symm.trans hu'
  | @acquire _ y f hx hf hq hafter hos =>
    obtain ⟨z, hz, hsource⟩ := (Option.any_eq_true _ _).mp hfactory
    obtain rfl := Option.some.inj (hz.symm.trans (behind?_eq_some.mp hx).2)
    rw [hu] at hf hafter
    have hframe : f = .resolving 0 ref.target b ref := by
      rw [hf]
      unfold fetch
      cases hz' : z.source with
      | object o =>
        rw [hz'] at hsource
        cases hsource
      | factory => rfl
    subst hframe
    obtain rfl := Option.some.inj (hafter.symm.trans hu')
    have huse : out.2.any (·.isUseOf b ref) = true := by
      rw [any_gist (fun _ => Occurrence.matters_of_isUseOf), hos, List.any_cons]
      simp [Occurrence.isUseOf]
    have hasking : out.2.any (·.isAsking ref.target b) = true := by
      rw [any_gist (fun _ => Occurrence.matters_of_isAsking), hos]
      simp [gist, Frame.asks, Frame.question?, Occurrence.matters, Occurrence.isAsking]
    have hnone : out.2.filterMap Occurrence.supplied? = [] := by
      rw [filterMap_gist, hos]
      rfl
    rw [dealing, huse, hasking, hnone, Bool.true_and, if_pos rfl, List.map_nil, ite_self]
    exact .asked (p := []) hq rfl hidle rfl rfl
  | supplied _ _ hsame => cases (hsame.trans hu).symm.trans hu'
  | settle hse _ hledger =>
    rw [hledger, hse.ledger_eq hu] at hu'
    cases hu.symm.trans hu'
  | decrement _ _ _ hbefore => cases hbefore.symm.trans hu
  | flush _ _ _ _ _ hbefore => cases hbefore.symm.trans hu
  | drain _ _ hafter => cases hafter.symm.trans hu'

theorem Undisturbed.init (hund : Undisturbed w b ref (ms ++ [m])) : Undisturbed w b ref ms :=
  fun l k hl => hund l k (hl.trans (List.prefix_append ..))

/-- While the entry is there, the making of its object is at a stage. -/
theorem Lifetime.stage (hst : ∃ g, Standing w g) (hfactory : w.isFactory ref.target = true)
    (hidle : w.inFlight b ref = 0) (hund : Undisturbed w b ref ms) (hlife : Lifetime w b ref ms out) (hms : ms ≠ []) :
    ∃ u, out.1.booked? b ref = some u ∧ u.reference = ref ∧ Stage out.1 b ref u (w.dealings b ref ms) := by
  induction ms using List.reverseRecOn generalizing out with
  | nil => exact absurd rfl hms
  | append_singleton ms m ih =>
    obtain ⟨u', hu', href'⟩ := hlife.entry (by simp)
    obtain ⟨mid, last, v, top, g, g', hinit, hplay, rfl, hv, hturn, hst', hst'', hs, hp⟩ := hlife.pair hst
    have hmidfactory : v.isFactory ref.target = true := by
      have hmid := isFactory_run hinit.run hfactory
      rw [hv] at hmid
      exact hmid
    have hentry := hu'
    rw [booked?_eq hst''] at hentry
    refine ⟨u', hu', href', ?_⟩
    rw [dealings_concat ms hinit.run hplay, hv]
    rcases List.eq_nil_or_concat ms with rfl | ⟨l, k, hms'⟩
    · obtain rfl := Option.some.inj hinit.run
      have habsent := hlife.absent
      have hv : w = v.onto top := hv
      subst hv
      rw [booked?_eq hst'] at habsent
      exact stage_first hs hp hidle hmidfactory habsent hentry
    · obtain ⟨u, hu, href, hstage⟩ := ih hund.init hinit (by simp [hms'])
      have hcalm := hund ms m (List.prefix_refl _) mid last hinit.run hplay
      rw [hv] at hu hstage hcalm hturn
      rw [booked?_eq hst'] at hu
      rcases hstage.step hst' hturn hs hp hmidfactory hu href hcalm with ⟨z, hz, hnext⟩ | ⟨hgone, -⟩
      · obtain rfl := Option.some.inj (hz.symm.trans hentry)
        exact hnext
      · cases hgone.symm.trans hentry

/-- A decision in the life of an entry. -/
theorem Lifetime.kept (hst : ∃ g, Standing w g) (hfactory : w.isFactory ref.target = true)
    (hidle : w.inFlight b ref = 0) (hund : Undisturbed w b ref (ms ++ [m])) (hlife : Lifetime w b ref (ms ++ [m]) out)
    (hrun : w.run ms = some mid) (hplay : mid.1.play m = some last) {x : Option α} (hmem : .decided 0 b ref x ∈ last.2) :
    ∃ s, last.1.stack = .releasing 0 ref.target [] (.got b ref x) :: s := by
  obtain ⟨u', hu', -⟩ := hlife.entry (by simp)
  obtain ⟨mid', last', v, top, g, g', hinit, hplay', rfl, hv, hturn, hst', hst'', hs, hp⟩ := hlife.pair hst
  obtain rfl := Option.some.inj (hrun.symm.trans hinit.run)
  obtain rfl := Option.some.inj (hplay.symm.trans hplay')
  rw [booked?_eq hst''] at hu'
  rcases List.eq_nil_or_concat ms with rfl | ⟨l, k, hms⟩
  · -- The move that makes the entry decides nothing.
    obtain rfl := Option.some.inj hinit.run
    have habsent := hlife.absent
    have hv : w = v.onto top := hv
    subst hv
    rw [booked?_eq hst'] at habsent
    obtain ⟨h, fresh, o, due, rfl, -⟩ := decided_of_step hs hmem
    cases hp with
    | elsewhere _ _ _ hsame => cases (hsame.trans habsent).symm.trans hu'
    | settle hse _ hledger =>
      rw [hledger, hse.ledger_eq habsent] at hu'
      cases habsent.symm.trans hu'
    | decrement _ _ _ hbefore => cases hbefore.symm.trans habsent
    | flush _ _ _ _ _ hbefore => cases hbefore.symm.trans habsent
  · obtain ⟨u, hu, href, hstage⟩ := hinit.stage hst hfactory hidle hund.init (by simp [hms])
    rw [hv] at hu hstage
    rw [booked?_eq hst'] at hu
    exact ⟨v.stack, hstage.kept hs hp (valid_of_entry hst' hu href) hu hmem⟩

theorem Lifetime.madeOnce (hst : ∃ g, Standing w g) (hlife : Lifetime w b ref ms out)
    (hfactory : w.isFactory ref.target = true) (hidle : w.inFlight b ref = 0) (hund : Undisturbed w b ref ms) :
    MadeOnce w b ref ms out := by
  refine ⟨?_, ?_, ?_, ?_⟩
  · intro hms
    obtain ⟨u, -, -, hstage⟩ := hlife.stage hst hfactory hidle hund hms
    generalize w.dealings b ref ms = ds at hstage
    cases hstage with
    | asked => exact Or.inl rfl
    | answered => exact Or.inr ⟨_, rfl⟩
    | cached => exact Or.inr ⟨_, rfl⟩
  · intro u x hu hx
    have hms : ms ≠ [] := by
      rintro rfl
      obtain rfl := Option.some.inj hlife.run
      cases hlife.absent.symm.trans hu
    obtain ⟨u', hu', -, hstage⟩ := hlife.stage hst hfactory hidle hund hms
    obtain rfl := Option.some.inj (hu.symm.trans hu')
    generalize w.dealings b ref ms = ds at hstage
    cases hstage with
    | asked _ _ _ hnone => cases hnone.symm.trans hx
    | answered _ _ hnone => cases hnone.symm.trans hx
    | cached hsome =>
      obtain rfl := Option.some.inj (hsome.symm.trans hx)
      rfl
  · intro l m mid os o x hl hmid hplay htold
    have hrun : w.run (l ++ [m]) = some (o.1, os ++ o.2) := run_extend hmid hplay
    have hlife' : Lifetime w b ref (l ++ [m]) (o.1, os ++ o.2) :=
      ⟨hrun, hlife.absent, fun k hk => hlife.present k (hk.trans hl)⟩
    have hund' : Undisturbed w b ref (l ++ [m]) := fun k n hk => hund k n (hk.trans hl)
    exact hlife'.kept hst hfactory hidle hund' hmid hplay htold
  · intro m last hms hplay hund' hgone
    obtain ⟨u, hu, href, hstage⟩ := hlife.stage hst hfactory hidle hund hms
    obtain ⟨g, hst'⟩ := reachable_run hst hlife.run
    obtain ⟨g', hst''⟩ := standing_play hst' hplay
    have honly := only_of_entry hst' hu href
    have hcalm := hund' ms m (List.prefix_refl _) out last hlife.run hplay
    have hfactory' := isFactory_run hlife.run hfactory
    rw [dealings_concat ms hlife.run hplay]
    obtain ⟨v, top, hv, hturn, hs⟩ := play_step hplay
    rw [hv] at hst' hu hstage hcalm hturn hfactory' ⊢
    rw [booked?_eq hst'] at hu
    rw [booked?_eq hst''] at hgone
    have hp : PairStep v g g' b ref top last := pair_step hst' hs hst'' honly
    rcases hstage.step hst' hturn hs hp hfactory' hu href hcalm with ⟨z, hz, -⟩ | ⟨-, hends⟩
    · cases hz.symm.trans hgone
    · exact hends

end World

end Switchboard
