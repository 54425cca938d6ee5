/-
  Switchboard.Proofs.World.Grants — what is told of the uses of a pair.

  A pair is a bundle and a reference. Its gets that came to their decision were granted an object
  or not (`grants`), its ungets that found a use gave one back (`givenBack`), and the rest of its
  gets are in flight (`inFlight`).

  Most of what a step tells is of no pair, or of another one (`Silent`). A step that does
  something to a use tells of it first, and of nothing but what it asks then (`told_of_gist`).
-/

import Switchboard.Proofs.World.Standing

namespace Switchboard

variable {α : Type} {b : BundleId} {ref : Reference}

def Occurrence.granted? (b : BundleId) (ref : Reference) : Occurrence α → Option α
  | decided _ b' ref' o => if b' = b ∧ ref' = ref then o else none
  | _ => none

def Occurrence.givesBack (b : BundleId) (ref : Reference) : Occurrence α → Bool
  | released _ b' ref' _ | flushed _ b' ref' => decide (b' = b ∧ ref' = ref)
  | _ => false

/-- Does it tell of a use of the pair, or that its registration was drained? -/
def Occurrence.concerns (b : BundleId) (ref : Reference) : Occurrence α → Bool
  | acquired _ c q | decided _ c q _ | released _ c q _ | flushed _ c q => decide (c = b ∧ q = ref)
  | drained _ t _ => t == ref.target
  | _ => false

def grants (os : List (Occurrence α)) (b : BundleId) (ref : Reference) : List α := os.filterMap (·.granted? b ref)

def givenBack (os : List (Occurrence α)) (b : BundleId) (ref : Reference) : Nat := os.countP (·.givesBack b ref)

/-- Is it a `get` of the pair between its first section and its final one? -/
def Frame.isGetOf (b : BundleId) (ref : Reference) (f : Frame α) : Bool :=
  f.getting?.any fun p => decide (p.2 = (b, ref))

def World.inFlight (w : World α) (b : BundleId) (ref : Reference) : Nat := w.stack.countP (·.isGetOf b ref)

theorem Occurrence.matters_of_concerns {o : Occurrence α} (ho : o.concerns b ref = true) : o.matters = true := by
  cases o <;> first | rfl | cases ho

theorem grants_append (os os' : List (Occurrence α)) : grants (os ++ os') b ref = grants os b ref ++ grants os' b ref :=
  List.filterMap_append

theorem givenBack_append (os os' : List (Occurrence α)) :
    givenBack (os ++ os') b ref = givenBack os b ref + givenBack os' b ref :=
  List.countP_append

theorem grants_append_none {os' : List (Occurrence α)} (hnone : grants os' b ref = []) (os : List (Occurrence α)) :
    grants (os ++ os') b ref = grants os b ref := by
  rw [grants_append, hnone, List.append_nil]

theorem givenBack_append_none {os' : List (Occurrence α)} (hnone : givenBack os' b ref = 0) (os : List (Occurrence α)) :
    givenBack (os ++ os') b ref = givenBack os b ref := by
  rw [givenBack_append, hnone, Nat.add_zero]

theorem grants_gist (os : List (Occurrence α)) : grants (gist os) b ref = grants os b ref := by
  rw [grants, gist, List.filterMap_filter, grants]
  refine List.filterMap_congr fun o _ => ?_
  cases o with
  | asked q => cases q <;> rfl
  | answered q a => cases q <;> rfl
  | _ => rfl

theorem givenBack_gist (os : List (Occurrence α)) : givenBack (gist os) b ref = givenBack os b ref := by
  rw [givenBack, gist, List.countP_filter, givenBack]
  refine List.countP_congr fun o _ => ?_
  cases o with
  | asked q => cases q <;> simp [Occurrence.givesBack]
  | answered q a => cases q <;> simp [Occurrence.givesBack]
  | _ => simp [Occurrence.givesBack, Occurrence.matters]

namespace World

variable {w v : World α} {g : Registry α} {os l : List (Occurrence α)} {o : Occurrence α} {f : Frame α}

/-! ## What is told -/

def Silent (os : List (Occurrence α)) (b : BundleId) (ref : Reference) : Prop := ∀ o ∈ os, o.concerns b ref = false

theorem Silent.grants (h : Silent os b ref) : grants os b ref = [] := by
  refine List.filterMap_eq_nil_iff.mpr fun o ho => ?_
  have hsilent := h o ho
  cases o with
  | decided r c q x =>
    have hne : ¬ (c = b ∧ q = ref) := of_decide_eq_false hsilent
    exact if_neg hne
  | _ => rfl

theorem Silent.givenBack (h : Silent os b ref) : givenBack os b ref = 0 := by
  refine List.countP_eq_zero.mpr fun o ho => ?_
  have hsilent := h o ho
  cases o with
  | released | flushed => exact Bool.eq_false_iff.mp hsilent
  | _ => exact Bool.false_ne_true

/-- What is asked is no use of a pair. -/
theorem silent_asks (f : Frame α) : Silent f.asks b ref := by
  intro o ho
  obtain ⟨q, -, rfl⟩ := List.mem_map.mp ho
  rfl

theorem silent_back (back : Option (Frame α)) : Silent (back.toList.flatMap Frame.asks) b ref := by
  intro o ho
  obtain ⟨f, -, ho⟩ := List.mem_flatMap.mp ho
  exact silent_asks f o ho

theorem silent_nil : Silent ([] : List (Occurrence α)) b ref := by simp [Silent]

theorem silent_gist : Silent (gist os) b ref ↔ Silent os b ref := by
  constructor
  · intro h o ho
    by_contra hne
    have hconcerns : o.concerns b ref = true := by simpa using hne
    exact hne (h o (List.mem_filter.mpr ⟨ho, Occurrence.matters_of_concerns hconcerns⟩))
  · intro h o ho
    exact h o (List.mem_filter.mp ho).1

theorem silent_of_quiet (hos : gist os = []) : Silent os b ref := by
  rw [← silent_gist, hos]
  exact silent_nil

theorem silent_of_told (hos : gist os = o :: gist l) (ho : o.concerns b ref = false) (hl : Silent l b ref) :
    Silent os b ref := by
  rw [← silent_gist, hos]
  exact List.forall_mem_cons.mpr ⟨ho, silent_gist.mpr hl⟩

theorem silent_of_alone (hos : gist os = [o]) (ho : o.concerns b ref = false) : Silent os b ref :=
  silent_of_told (l := []) hos ho silent_nil

/-- A step tells of the pair by the head of its gist alone, for it asks about neither. -/
theorem told_of_gist (b : BundleId) (ref : Reference) (hos : gist os = o :: gist l) (hl : Silent l b ref) :
    grants os b ref = (o.granted? b ref).toList ∧ givenBack os b ref = if o.givesBack b ref then 1 else 0 := by
  rw [← grants_gist, ← givenBack_gist, hos, grants, givenBack, List.filterMap_cons, List.countP_cons, ← grants,
    ← givenBack, grants_gist, givenBack_gist, hl.grants, hl.givenBack, Nat.zero_add]
  exact ⟨by cases o.granted? b ref <;> rfl, rfl⟩

theorem told_alone (b : BundleId) (ref : Reference) (hos : gist os = [o]) :
    grants os b ref = (o.granted? b ref).toList ∧ givenBack os b ref = if o.givesBack b ref then 1 else 0 :=
  told_of_gist (l := []) b ref hos silent_nil

theorem told_asks (b : BundleId) (ref : Reference) (hos : gist os = o :: gist f.asks) :
    grants os b ref = (o.granted? b ref).toList ∧ givenBack os b ref = if o.givesBack b ref then 1 else 0 :=
  told_of_gist b ref hos (silent_asks f)

/-! ## Gets in flight -/

def gets (fs : List (Frame α)) (b : BundleId) (ref : Reference) : Nat := fs.countP (·.isGetOf b ref)

theorem gets_append (p q : List (Frame α)) (b : BundleId) (ref : Reference) :
    gets (p ++ q) b ref = gets p b ref + gets q b ref :=
  List.countP_append

theorem gets_cons (f : Frame α) (fs : List (Frame α)) (b : BundleId) (ref : Reference) :
    gets (f :: fs) b ref = gets fs b ref + if f.isGetOf b ref then 1 else 0 :=
  List.countP_cons ..

theorem gets_singleton (f : Frame α) (b : BundleId) (ref : Reference) :
    gets [f] b ref = if f.isGetOf b ref then 1 else 0 :=
  List.countP_singleton ..

theorem inFlight_of_stack {p : List (Frame α)} (hstack : w.stack = p ++ v.stack) :
    w.inFlight b ref = gets p b ref + v.inFlight b ref := by
  rw [inFlight, hstack]
  exact List.countP_append

theorem isGetOf_of_getting?_none (hf : f.getting? = none) : f.isGetOf b ref = false := by
  rw [Frame.isGetOf, hf]
  rfl

theorem isGetOf_of_getting? {t : Handle} (hf : f.getting? = some (t, b, ref)) : f.isGetOf b ref = true := by
  rw [Frame.isGetOf, hf]
  simp

theorem gets_single_of_ne {t : Handle} {c : BundleId} {q : Reference} (hf : f.getting? = some (t, c, q))
    (hne : ¬ (c = b ∧ q = ref)) : gets [f] b ref = 0 := by
  rw [gets_singleton, Frame.isGetOf, hf]
  simp [hne]

theorem gets_single_none (hf : f.getting? = none) : gets [f] b ref = 0 := by
  rw [gets_singleton, isGetOf_of_getting?_none hf]
  rfl

theorem gets_single {t : Handle} (hf : f.getting? = some (t, b, ref)) : gets [f] b ref = 1 := by
  rw [gets_singleton, isGetOf_of_getting? hf]
  rfl

theorem gets_option {o : Option (Frame α)} (ho : ∀ k ∈ o, k.getting? = none) (b : BundleId) (ref : Reference) :
    gets o.toList b ref = 0 :=
  countP_option fun k hk => isGetOf_of_getting?_none (ho k hk)

theorem gets_aside {o : Option (Frame α)} (ho : ∀ k ∈ o, k.isAside) (b : BundleId) (ref : Reference) :
    gets o.toList b ref = 0 :=
  gets_option (fun k hk => Frame.getting?_of_aside (ho k hk)) b ref

theorem gets_loop {o : Option (Frame α)} (ho : ∀ k ∈ o, k.isLoop) (b : BundleId) (ref : Reference) :
    gets o.toList b ref = 0 :=
  gets_aside (fun k hk => Frame.aside_of_loop (ho k hk)) b ref

/-! ## The pair of an entry -/

/-- Does the registry know no other reference of that id? -/
def IsOnly (g : Registry α) (ref : Reference) : Prop :=
  ∀ q, g.knows q = true → q.id = ref.id → q = ref

theorem only_of_known (hknown : g.knows ref = true) : IsOnly g ref :=
  fun _ hq hid => Registry.knows_unique hq hknown hid

/-- What is handed out stays handed out. -/
theorem IsOnly.before {g' : Registry α} {top : Option (Frame α)} {out : Outcome α} (hst : Standing (v.onto top) g)
    (hs : Step v top out) (hst' : Standing out.1 g') (honly : IsOnly g' ref) : IsOnly g ref :=
  fun q hq hid => honly q (knows_step hst hs hst' hq) hid

theorem pair_ne_of_only (honly : IsOnly g ref) {c : BundleId} {q : Reference} (hq : g.knows q = true)
    (hne : ¬ (c = b ∧ q = ref)) : (b, ref.id) ≠ (c, q.id) := by
  intro heq
  obtain ⟨rfl, hid⟩ := Prod.mk.inj heq
  exact hne ⟨rfl, honly q hq hid.symm⟩

end World

end Switchboard
