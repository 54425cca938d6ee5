/-
  Switchboard.Proofs.World.Capacity — the capacity of a registry's tables shows in orders only.

  A client that carries out a script is served alike by registries that start with tables of another
  capacity (`same_at_any_capacity`). Three things come in the order of a table (`Matches`): what a
  lookup finds and asks the filter about, the bundles that use a reference, and the objects that a
  drain gives back. All else is the same in the same order, to the ids of references.

  Both registries make the same moves, side by side. Between moves the worlds are twins and what
  happened differs in the order of hand-overs at most, or both are in the middle of one hand-over,
  with as many objects to go (`Abreast`). Every reaction keeps them abreast (`abreast_reaction`), and
  so an errand leaves twins (`keepsUp_errand`).

  A lookup of several services is not run side by side, for its candidates come in two orders: what
  it comes to is told from the candidates (`completes_find`).
-/

import Switchboard.Proofs.World.Ensures
import Switchboard.Proofs.World.Twin

namespace Switchboard

variable {α : Type}

def Occurrence.isMinted : Occurrence α → Bool
  | minted .. => true
  | _ => false

/-- The same happened, but for the order in which a drained registration's objects went back. -/
inductive Reordered : List (Occurrence α) → List (Occurrence α) → Prop
  | nil : Reordered [] []
  | same {os os' : List (Occurrence α)} (o : Occurrence α) (hmore : Reordered os os') : Reordered (o :: os) (o :: os')
  | drained {os os' : List (Occurrence α)} (r : Nat) (h : Handle) (n : Nat) {due due' : List (BundleId × α)}
      (hdue : due'.Perm due) (hmore : Reordered os os') :
      Reordered (.drained r h n :: (due.flatMap (goesBack h) ++ os)) (.drained r h n :: (due'.flatMap (goesBack h) ++ os'))

inductive Matches : Errand α → List (Occurrence α) → List (Occurrence α) → Prop
  /-- A lookup gives references with the same ids to the same registrations, and the filter was asked
      about the same with the same verdicts, though not in the same order. -/
  | found {r : Nat} {name : Option String} {filtered : Bool} {picks : Properties → Bool}
      {said said' : List (Occurrence α)} {refs refs' : List Reference} (hids : refs'.map (·.id) = refs.map (·.id))
      (htargets : (refs'.map fun q => (q.service, q.target)).Perm (refs.map fun q => (q.service, q.target)))
      (hminted : mintedAt said r = refs) (hminted' : mintedAt said' r = refs')
      (hcalls : (said'.filter (!·.isMinted)).Perm (said.filter (!·.isMinted))) :
      Matches ⟨.call r (.find name filtered), picks⟩ (said ++ [.returned (.references refs)])
        (said' ++ [.returned (.references refs')])
  /-- The same bundles use the reference. -/
  | users {r : Nat} {ref : Reference} {picks : Properties → Bool} {bs bs' : List BundleId} (hbundles : bs'.Perm bs) :
      Matches ⟨.call r (.users ref), picks⟩ [.called r (.users ref), .returned (.bundles bs)]
        [.called r (.users ref), .returned (.bundles bs')]
  | plain {e : Errand α} {said said' : List (Occurrence α)}
      (he : ∀ r op, e.move = .call r op → op.isTabular = false) (hsaid : Reordered said said') : Matches e said said'

def Resized (s s' : Config × Bool) : Prop := s' = ({ s.1 with initialCapacity := s'.1.initialCapacity }, s.2)

/-! ## Reordered -/

theorem Reordered.refl (os : List (Occurrence α)) : Reordered os os := by
  induction os with
  | nil => exact .nil
  | cons o os ih => exact .same o ih

theorem Reordered.append {os os' ps ps' : List (Occurrence α)} (h : Reordered os os') (h' : Reordered ps ps') :
    Reordered (os ++ ps) (os' ++ ps') := by
  induction h with
  | nil => exact h'
  | same o _ ih => exact .same o ih
  | drained r h n hdue _ ih =>
    simp only [List.cons_append, List.append_assoc]
    exact .drained r h n hdue ih

/-- What does not look at objects going back looks the same. -/
theorem Reordered.flatMap_eq {β : Type} {f : Occurrence α → List β}
    (hf : ∀ h d, (goesBack h d).flatMap f = []) {os os' : List (Occurrence α)} (h : Reordered os os') :
    os'.flatMap f = os.flatMap f := by
  have hback : ∀ h (due : List (BundleId × α)), (due.flatMap (goesBack h)).flatMap f = [] := by
    intro h due
    rw [List.flatMap_assoc]
    exact List.flatMap_eq_nil_iff.mpr fun d _ => hf h d
  induction h with
  | nil => rfl
  | same o _ ih => rw [List.flatMap_cons, List.flatMap_cons, ih]
  | drained r h n _ _ ih =>
    simp only [List.flatMap_cons, List.flatMap_append, hback, List.nil_append, ih]

theorem Reordered.orders {os os' : List (Occurrence α)} (h : Reordered os os') : orders os' = orders os := by
  simp only [Switchboard.orders, List.filterMap_eq_flatMap_toList]
  exact h.flatMap_eq fun _ _ => rfl

theorem Reordered.replied {os os' : List (Occurrence α)} (h : Reordered os os') : replied os' = replied os :=
  h.flatMap_eq fun _ _ => rfl

theorem Matches.finds {e : Errand α} {said said' : List (Occurrence α)} (hm : Matches e said said') :
    e.finds said' = e.finds said := by
  cases hm with
  | found => rfl
  | users => rfl
  | plain _ hsaid =>
    unfold Errand.finds
    split
    · rw [hsaid.replied]
    · rfl

/-- Handing out references is no request to a factory. -/
theorem orders_filter (os : List (Occurrence α)) : orders (os.filter (!·.isMinted)) = orders os := by
  rw [orders, List.filterMap_filter, orders]
  refine List.filterMap_congr fun o _ => ?_
  cases o <;> rfl

theorem answerTo_congr {os os' : List (Occurrence α)} (horders : orders os' = orders os) (makes : Factories α)
    (picks : Properties → Bool) : answerTo makes picks os' = answerTo makes picks os := by
  funext q
  cases q <;> simp only [answerTo, horders]

namespace World

variable {makes : Factories α} {picks : Properties → Bool} {os os' : List (Occurrence α)} {p p' out last : Outcome α}
  {w w' v v' : World α} {g : Registry α} {r : Nat}

/-! ## Side by side -/

/-- A reaction is an answer to the innermost operation, or the innermost operation goes on. -/
theorem play_reaction {f : Frame α} {fs : List (Frame α)} (hstack : w.stack = f :: fs) :
    w.play (w.reaction makes picks os) =
      match f.question? with
      | some q => ({ w with stack := fs }.resume? f (answerTo makes picks os q)).map
          (after [.answered q (answerTo makes picks os q)])
      | none => { w with stack := fs }.advance? f := by
  have hpending : w.pending? = f.question? := by rw [pending?, hstack]; rfl
  rw [reaction, hpending]
  cases hq : f.question? with
  | none => simp only [play, tick?, hstack]
  | some q =>
    simp only [play, answer?, hstack, hq]
    cases { w with stack := fs }.resume? f (answerTo makes picks os q) <;> rfl

/-- Two worlds and what happened in each since the errand began. -/
inductive Abreast : Outcome α → Outcome α → Prop
  | level {w w' : World α} {said said' : List (Occurrence α)} (ht : w.Twin w') (hsaid : Reordered said said') :
      Abreast (w, said) (w', said')
  /-- A drain is giving objects back; `done` are back, and `d` is going back. -/
  | handing {v v' : World α} {said said' : List (Occurrence α)} {done done' rest rest' : List (BundleId × α)}
      {d d' : BundleId × α} (ht : v.Twin v') (hsaid : Reordered said said') (r : Nat) (h : Handle) (n : Nat)
      (hdue : (done' ++ d' :: rest').Perm (done ++ d :: rest)) (hlength : rest'.length = rest.length) :
      Abreast
        ((v.place (.releasing r h (d :: rest) .withdrawn)).1,
          said ++ .drained r h n :: done.flatMap (goesBack h) ++ (v.place (.releasing r h (d :: rest) .withdrawn)).2)
        ((v'.place (.releasing r h (d' :: rest') .withdrawn)).1,
          said' ++ .drained r h n :: done'.flatMap (goesBack h) ++ (v'.place (.releasing r h (d' :: rest') .withdrawn)).2)

/-- A drain goes on giving back, or has given back all. -/
theorem abreast_placed {said said' : List (Occurrence α)} (ht : v.Twin v') (hsaid : Reordered said said') (r : Nat)
    (h : Handle) (n : Nat) (done done' : List (BundleId × α)) {due due' : List (BundleId × α)}
    (hdue : (done' ++ due').Perm (done ++ due)) (hlength : due'.length = due.length) :
    Abreast
      ((v.place (.releasing r h due .withdrawn)).1,
        said ++ .drained r h n :: done.flatMap (goesBack h) ++ (v.place (.releasing r h due .withdrawn)).2)
      ((v'.place (.releasing r h due' .withdrawn)).1,
        said' ++ .drained r h n :: done'.flatMap (goesBack h) ++ (v'.place (.releasing r h due' .withdrawn)).2) := by
  cases due with
  | nil =>
    obtain rfl := List.length_eq_zero_iff.mp hlength
    rw [List.append_nil, List.append_nil] at hdue
    refine .level (parallel_place ht _).world ?_
    have hback := Reordered.drained r h n hdue .nil
    rw [List.append_nil, List.append_nil] at hback
    exact (hsaid.append hback).append .nil
  | cons d rest =>
    cases due' with
    | nil => cases hlength
    | cons d' rest' => exact .handing ht hsaid r h n hdue (Nat.succ.inj hlength)

theorem Abreast.busy (ha : Abreast p p') (hbusy : p.1.stack ≠ []) : p'.1.stack ≠ [] := by
  cases ha with
  | level ht => rwa [ht.stack]
  | handing => exact List.cons_ne_nil _ _

theorem Abreast.orders (ha : Abreast p p') : orders p'.2 = orders p.2 := by
  have hback : ∀ h (due : List (BundleId × α)), Switchboard.orders (due.flatMap (goesBack h)) = [] := by
    intro h due
    induction due with
    | nil => rfl
    | cons d due ih =>
      rw [List.flatMap_cons, orders_append, ih]
      rfl
  have hdrained : ∀ r h n (due : List (BundleId × α)),
      Switchboard.orders (.drained r h n :: due.flatMap (goesBack h)) = [] := fun _ h _ due => hback h due
  cases ha with
  | level _ hsaid => exact hsaid.orders
  | handing _ hsaid r h n =>
    simp only [orders_append, hsaid.orders, hdrained]
    rfl

/-- From twins, all but a drain is the same. -/
theorem level_goesOn {said said' : List (Occurrence α)} {o o' : Outcome α} (hsaid : Reordered said said')
    (hp : Parallel o o') : Abreast (o.1, said ++ o.2) (o'.1, said' ++ o'.2) := by
  rw [hp.told]
  exact .level hp.world (hsaid.append (.refl _))

theorem level_drain {said said' : List (Occurrence α)} {g' : Registry α} (ht : w.Twin w') (hg : g.Twin g')
    (hsaid : Reordered said said') (r : Nat) (h : Handle) :
    Abreast ((w.drain r g h).1, said ++ (w.drain r g h).2) ((w'.drain r g' h).1, said' ++ (w'.drain r g' h).2) := by
  obtain ⟨n, due, due', v, v', hdue, hv, hdrain, hdrain'⟩ := drain_twin ht hg r h
  rw [hdrain, hdrain']
  have hplaced := abreast_placed hv hsaid r h n [] [] hdue hdue.length_eq
  rw [List.append_assoc, List.append_assoc] at hplaced
  exact hplaced

theorem level_reaction {said said' : List (Occurrence α)} (ht : w.Twin w') (hsaid : Reordered said said')
    (hbusy : w.stack ≠ []) (hanswers : answerTo makes picks os' = answerTo makes picks os)
    (hplay : w.play (w.reaction makes picks os) = some out) :
    ∃ out', w'.play (w'.reaction makes picks os') = some out' ∧ Abreast (out.1, said ++ out.2) (out'.1, said' ++ out'.2) := by
  obtain ⟨f, fs, hstack⟩ := List.exists_cons_of_ne_nil hbusy
  have hbelow := ht.under fs
  rw [play_reaction hstack] at hplay
  rw [play_reaction (ht.stack.trans hstack), hanswers]
  cases hq : f.question? with
  | some q =>
    simp only [hq] at hplay
    obtain ⟨o, hresume, rfl⟩ := Option.map_eq_some_iff.mp hplay
    obtain ⟨o', hresume', hpar⟩ := parallel_resume? hbelow hresume
    exact ⟨_, by simp only [hresume', Option.map_some], level_goesOn hsaid (hpar.after _)⟩
  | none =>
    simp only [hq] at hplay
    by_cases hdrain : ∃ r h, f = .draining r h
    · obtain ⟨r, h, rfl⟩ := hdrain
      obtain ⟨g, hg, rfl⟩ := Option.map_eq_some_iff.mp hplay
      obtain ⟨g', hg', htwin⟩ := hbelow.registries r g hg
      exact ⟨_, by simp only [advance?, hg', Option.map_some], level_drain hbelow htwin hsaid r h⟩
    · obtain ⟨o', hadvance', hpar⟩ := parallel_advance? hbelow (fun r h heq => hdrain ⟨r, h, heq⟩) hplay
      exact ⟨_, hadvance', level_goesOn hsaid hpar⟩

theorem play_goesBack {d : BundleId × α} {due : List (BundleId × α)} {h : Handle} {e : Ending α} {s : List (Frame α)}
    (hstack : w.stack = .releasing r h (d :: due) e :: s) :
    w.play (w.reaction makes picks os) = some (after [.answered (.takeBack h d.1 d.2) .done]
      (World.place { w with stack := s } (.releasing r h due e))) := by
  rw [play_reaction hstack]
  rfl

theorem abreast_reaction (ha : Abreast p p') (hbusy : p.1.stack ≠ []) (horders : orders os' = orders os)
    (hplay : p.1.play (p.1.reaction makes picks (os ++ p.2)) = some out) :
    ∃ out', p'.1.play (p'.1.reaction makes picks (os' ++ p'.2)) = some out' ∧
      Abreast (out.1, p.2 ++ out.2) (out'.1, p'.2 ++ out'.2) := by
  have hanswers : answerTo makes picks (os' ++ p'.2) = answerTo makes picks (os ++ p.2) := by
    refine answerTo_congr ?_ makes picks
    rw [orders_append, orders_append, horders, ha.orders]
  cases ha with
  | level ht hsaid => exact level_reaction ht hsaid hbusy hanswers hplay
  | @handing v v' said said' done done' rest rest' d d' ht hsaid r h n hdue hlength =>
    rw [play_goesBack rfl] at hplay
    obtain rfl := Option.some.inj hplay
    refine ⟨_, play_goesBack rfl, ?_⟩
    have hnext := abreast_placed ht hsaid r h n (done ++ [d]) (done' ++ [d']) (by simpa using hdue) hlength
    have htold : ∀ (told : List (Occurrence α)) (done : List (BundleId × α)) d (asked : List (Occurrence α)),
        told ++ .drained r h n :: (done ++ [d]).flatMap (goesBack h) ++ asked =
          told ++ .drained r h n :: done.flatMap (goesBack h) ++ [.asked (.takeBack h d.1 d.2)] ++
            ([.answered (.takeBack h d.1 d.2) .done] ++ asked) := by
      intro told done d asked
      simp [goesBack]
    rw [htold, htold] at hnext
    exact hnext

/-- An errand that begins abreast ends with twins. -/
theorem abreast_completes (hcompletes : Completes makes picks os p last) (ha : Abreast p p') (horders : orders os' = orders os) :
    ∃ last', Completes makes picks os' p' last' ∧ last.1.Twin last'.1 ∧ Reordered last.2 last'.2 := by
  induction hcompletes generalizing p' with
  | done hrest =>
    cases ha with
    | level ht hsaid => exact ⟨_, .done (ht.stack.trans hrest), ht, hsaid⟩
    | handing => cases hrest
  | move hbusy hplay _ ih =>
    obtain ⟨out', hplay', hnext⟩ := abreast_reaction ha hbusy horders hplay
    obtain ⟨last', hcompletes', hlast⟩ := ih hnext
    exact ⟨last', .move (ha.busy hbusy) hplay' hcompletes', hlast⟩

/-! ## Lookups of several services -/

def interview (r : Nat) (picks : Properties → Bool) (c : Handle × Properties) : List (Occurrence α) :=
  [.asked (.filter r c.2), .answered (.filter r c.2) (.verdict (picks c.2))]

def interviews (r : Nat) (picks : Properties → Bool) (filtered : Bool) (cs : List (Handle × Properties)) :
    List (Occurrence α) :=
  if filtered then cs.flatMap (interview r picks) else []

theorem orders_interviews (r : Nat) (picks : Properties → Bool) (filtered : Bool) (cs : List (Handle × Properties)) :
    orders (interviews (α := α) r picks filtered cs) = [] := by
  cases filtered with
  | false => rfl
  | true =>
    induction cs with
    | nil => rfl
    | cons c cs ih => exact ih

theorem interviews_perm {cs cs' : List (Handle × Properties)} (hperm : cs'.Perm cs) (r : Nat) (picks : Properties → Bool)
    (filtered : Bool) : (interviews (α := α) r picks filtered cs').Perm (interviews r picks filtered cs) := by
  cases filtered with
  | false => exact List.Perm.refl _
  | true => exact hperm.flatMap_right _

def chosen (picks : Properties → Bool) (filtered : Bool) (cs : List (Handle × Properties)) : List Handle :=
  (cs.filter fun c => !filtered || picks c.2).map (·.1)

theorem pairs_mintAll (hg : w.registries[r]? = some g) (hs : List Handle) :
    (w.mintAll r hs).1.map (fun q => (q.service, q.target)) = hs.map fun h => (w.serviceId h, h) := by
  induction hs generalizing w g with
  | nil => rfl
  | cons h hs ih =>
    obtain ⟨k, hk, -⟩ := (handsOut_mint w r h).each r g hg
    have hids : (w.mint r h).2.1.serviceId = w.serviceId := funext fun t => serviceId_mint w r h t
    simp only [mintAll, List.map_append, List.map_cons]
    rw [ih hk, hids, mint_of_get hg]
    rfl

theorem ids_mintAll (hg : w.registries[r]? = some g) (hs : List Handle) :
    (w.mintAll r hs).1.map (·.id) = List.range' (g.references.size + 1) hs.length := by
  obtain ⟨k, -, hands⟩ := (handsOut_mintAll r hs w).each r g hg
  have hids := hands.ids
  have hlength := congrArg List.length (targets_mintAll hg hs)
  rw [List.length_map] at hlength
  rwa [told_mintAll, mintedAt_told, hlength] at hids

theorem filter_told (r : Nat) (refs : List Reference) :
    (refs.map (Occurrence.minted (α := α) r)).filter (!·.isMinted) = [] := by
  rw [List.filter_eq_nil_iff]
  intro o ho
  obtain ⟨ref, -, rfl⟩ := List.mem_map.mp ho
  simp [Occurrence.isMinted]

/-- A verdict mints what is chosen first, and what is chosen of the rest is minted after it. -/
theorem mintAll_judged (picks : Properties → Bool) (w : World α) (r : Nat) (found : List Reference)
    (c : Handle × Properties) (cs : List (Handle × Properties)) :
    (w.mintAll r (chosen picks true (c :: cs))).2.1 =
        ((w.judged r c.1 found (picks c.2)).2.1.mintAll r (chosen picks true cs)).2.1 ∧
      found ++ (w.mintAll r (chosen picks true (c :: cs))).1 = (w.judged r c.1 found (picks c.2)).1 ++
        ((w.judged r c.1 found (picks c.2)).2.1.mintAll r (chosen picks true cs)).1 ∧
      (w.mintAll r (chosen picks true (c :: cs))).1 = mintedAt (w.judged r c.1 found (picks c.2)).2.2 r ++
        ((w.judged r c.1 found (picks c.2)).2.1.mintAll r (chosen picks true cs)).1 ∧
      (w.judged r c.1 found (picks c.2)).2.2.filter (!·.isMinted) = [] := by
  cases hpick : picks c.2 with
  | false =>
    have hchosen : chosen picks true (c :: cs) = chosen picks true cs := by simp [chosen, hpick]
    rw [hchosen]
    exact ⟨rfl, rfl, rfl, rfl⟩
  | true =>
    have hchosen : chosen picks true (c :: cs) = c.1 :: chosen picks true cs := by simp [chosen, hpick]
    have htold := told_mint w r c.1
    rw [hchosen]
    refine ⟨rfl, (List.append_assoc ..).symm, ?_, ?_⟩
    · simp only [judged, htold, mintedAt_told]
      rfl
    · simp only [judged, htold, filter_told]

/-- The filter is asked about one candidate after the other. -/
theorem completes_filterNext (makes : Factories α) (picks : Properties → Bool) (os : List (Occurrence α)) (r : Nat)
    (cs : List (Handle × Properties)) {w : World α} (hrest : w.stack = []) (found : List Reference)
    (said : List (Occurrence α)) :
    ∃ more, Completes makes picks os ((w.filterNext r found cs).1, said ++ (w.filterNext r found cs).2)
        ((w.mintAll r (chosen picks true cs)).2.1,
          said ++ more ++ [.returned (.references (found ++ (w.mintAll r (chosen picks true cs)).1))]) ∧
      mintedAt more r = (w.mintAll r (chosen picks true cs)).1 ∧
      more.filter (!·.isMinted) = cs.flatMap (interview r picks) := by
  induction cs generalizing w found said with
  | nil =>
    have hturn : w.isClientsTurn = true := by simp [isClientsTurn, hrest]
    have hend : w.finish (.references found) = (w, [.returned (.references found)]) := finish_eq hturn (by simp)
    refine ⟨[], ?_, rfl, rfl⟩
    rw [filterNext, hend]
    simpa [chosen, mintAll] using Completes.done hrest
  | cons c cs ih =>
    obtain ⟨hworld, hfound, hminted, hsilent⟩ := mintAll_judged picks w r found c cs
    have hplay : (w.place (.filtering r c.1 c.2 cs found)).1.play (.answer (.verdict (picks c.2))) =
        some (after [.answered (.filter r c.2) (.verdict (picks c.2))]
          (after (w.judged r c.1 found (picks c.2)).2.2
            ((w.judged r c.1 found (picks c.2)).2.1.filterNext r (w.judged r c.1 found (picks c.2)).1 cs))) :=
      play_verdict rfl (picks c.2)
    have hbelow := (stack_judged w r c.1 found (picks c.2)).trans hrest
    generalize w.judged r c.1 found (picks c.2) = j at hworld hfound hminted hsilent hplay hbelow
    obtain ⟨more, hcompletes, hmore, hcalls⟩ := ih hbelow j.1 (said ++ interview r picks c ++ j.2.2)
    refine ⟨interview r picks c ++ j.2.2 ++ more, .move (List.cons_ne_nil _ _) hplay ?_, ?_, ?_⟩
    · rw [hworld, hfound]
      show Completes makes picks os ((j.2.1.filterNext r j.1 cs).1,
        said ++ [.asked (.filter r c.2)] ++ ([_] ++ (j.2.2 ++ (j.2.1.filterNext r j.1 cs).2))) _
      simpa only [interview, List.append_assoc, List.cons_append, List.nil_append] using hcompletes
    · rw [mintedAt_append, mintedAt_append, hmore, hminted]
      rfl
    · rw [List.filter_append, List.filter_append, hsilent, hcalls]
      rfl

theorem completes_find (makes : Factories α) (picks : Properties → Bool) (os : List (Occurrence α)) (hrest : w.stack = [])
    (hg : w.registries[r]? = some g) (name : Option String) (filtered : Bool)
    (hplay : w.play (.call r (.find name filtered)) = some out) :
    ∃ more, Completes makes picks os out
        ((w.mintAll r (chosen picks filtered (w.candidates g name))).2.1,
          .called r (.find name filtered) :: more ++
            [.returned (.references (w.mintAll r (chosen picks filtered (w.candidates g name))).1)]) ∧
      mintedAt more r = (w.mintAll r (chosen picks filtered (w.candidates g name))).1 ∧
      more.filter (!·.isMinted) = interviews r picks filtered (w.candidates g name) := by
  have hturn : w.isClientsTurn = true := by simp [isClientsTurn, hrest]
  rw [play_call hturn rfl hg] at hplay
  obtain rfl := Option.some.inj hplay
  cases filtered with
  | true =>
    have hcall : w.call r g (.find name true) = w.filterNext r [] (w.candidates g name) := rfl
    obtain ⟨more, hcompletes, hmore⟩ :=
      completes_filterNext makes picks os r (w.candidates g name) hrest [] [.called r (.find name true)]
    rw [hcall]
    exact ⟨more, hcompletes, hmore⟩
  | false =>
    have hchosen : chosen picks false (w.candidates g name) = (w.candidates g name).map (·.1) := by simp [chosen]
    have hcall : w.call r g (.find name false) = w.returnAll r ((w.candidates g name).map (·.1)) := rfl
    rw [hchosen, hcall, returnAll_eq hturn]
    refine ⟨(w.mintAll r ((w.candidates g name).map (·.1))).2.2, ?_, ?_, ?_⟩
    · exact .done ((mintAll_idle r _ w).2.1.trans hrest)
    · rw [told_mintAll, mintedAt_told]
    · rw [told_mintAll, filter_told]
      rfl

/-- With the errand that led from a world to `v`, and told `said`, its twin `w'` keeps up. -/
def KeepsUp (makes : Factories α) (e : Errand α) (w' : World α) (os' : List (Occurrence α)) (v : World α)
    (said : List (Occurrence α)) : Prop :=
  ∃ out' v' said', w'.play e.move = some out' ∧ Completes makes e.picks os' out' (v', said') ∧ v.Twin v' ∧
    orders said' = orders said ∧ Matches e said said'

theorem keepsUp_find {said : List (Occurrence α)} (ht : w.Twin w') (hrest : w.stack = []) {name : Option String}
    {filtered : Bool} (hplay : w.play (.call r (.find name filtered)) = some out)
    (hcompletes : Completes makes picks os out (v, said)) :
    KeepsUp makes ⟨.call r (.find name filtered), picks⟩ w' os' v said := by
  obtain ⟨hturn, hallows, g, hg, -⟩ := calls_of_play hplay
  obtain ⟨g', hg', htwin⟩ := ht.registries r g hg
  have hallows' : w'.allows (.find name filtered) = true := rfl
  have hplay' := play_call (ht.isClientsTurn.trans hturn) hallows' hg'
  obtain ⟨more, hdone, hminted, hcalls⟩ := completes_find makes picks os hrest hg name filtered hplay
  obtain ⟨more', hdone', hminted', hcalls'⟩ :=
    completes_find makes picks os' (ht.stack.trans hrest) hg' name filtered hplay'
  obtain ⟨rfl, rfl⟩ := Prod.mk.inj (hdone.unique hcompletes)
  have hcandidates := ht.candidates_perm htwin name
  have hchosen : (chosen picks filtered (w'.candidates g' name)).Perm (chosen picks filtered (w.candidates g name)) :=
    (hcandidates.filter _).map _
  refine ⟨_, _, _, hplay', hdone', ht.mintAll r hchosen.length_eq, ?_, .found ?_ ?_ hminted hminted' ?_⟩
  · -- No request to a factory is among what the lookups did in between.
    have hmore : orders more = [] := by rw [← orders_filter, hcalls, orders_interviews]
    have hmore' : orders more' = [] := by rw [← orders_filter, hcalls', orders_interviews]
    rw [orders_append, orders_append]
    show orders more' ++ _ = orders more ++ _
    rw [hmore, hmore']
    rfl
  · rw [ids_mintAll hg, ids_mintAll hg', htwin.handed, hchosen.length_eq]
  · rw [pairs_mintAll hg, pairs_mintAll hg', ht.serviceId]
    exact hchosen.map _
  · show (_ :: more'.filter (!·.isMinted)).Perm (_ :: more.filter (!·.isMinted))
    rw [hcalls, hcalls']
    exact (interviews_perm hcandidates r picks filtered).cons _

theorem keepsUp_users {said : List (Occurrence α)} (ht : w.Twin w') (hrest : w.stack = []) {ref : Reference}
    (hknown : w'.knows ref = true) (hplay : w.play (.call r (.users ref)) = some out)
    (hcompletes : Completes makes picks os out (v, said)) : KeepsUp makes ⟨.call r (.users ref), picks⟩ w' os' v said := by
  obtain ⟨hturn, hallows, g, hg, rfl⟩ := calls_of_play hplay
  obtain ⟨g', hg', htwin⟩ := ht.registries r g hg
  have hturn' := ht.isClientsTurn.trans hturn
  have hallows' : w'.allows (.users ref) = true := hknown
  have hplay' := play_call hturn' hallows' hg'
  have hcall : ∀ {u : World α} (k : Registry α), u.isClientsTurn = true →
      u.call r k (.users ref) = (u, [.returned (.bundles (k.ledger.bundles ref.id))]) := by
    intro u k hu
    rw [call, finish_eq hu (by simp)]
  rw [hcall g hturn] at hcompletes
  rw [hcall g' hturn'] at hplay'
  obtain ⟨rfl, rfl⟩ := Prod.mk.inj (hcompletes.at_once hrest)
  exact ⟨_, _, _, hplay', .done (ht.stack.trans hrest), ht, rfl, .users (htwin.ledger.bundles_perm ref.id)⟩

/-- The client takes or gives up a hold. -/
theorem keepsUp_held {e : Errand α} {said : List (Occurrence α)} (ht : w.Twin w') (hrest : w.stack = [])
    (holds : List Handle → List Handle) (he : ∀ r op, e.move ≠ .call r op)
    (hout : out = ({ w with held := holds w.held }, []))
    (hplay' : w'.play e.move = some ({ w' with held := holds w'.held }, []))
    (hcompletes : Completes makes e.picks os out (v, said)) : KeepsUp makes e w' os' v said := by
  rw [hout] at hcompletes
  obtain ⟨rfl, rfl⟩ := Prod.mk.inj (hcompletes.at_once hrest)
  exact ⟨_, _, _, hplay', .done (ht.stack.trans hrest), { ht with held := congrArg holds ht.held }, rfl,
    .plain (fun r op heq => absurd heq (he r op)) .nil⟩

/-- An errand leaves twins, if the other world knows the references it is given. -/
theorem keepsUp_errand {e : Errand α} {said : List (Occurrence α)} (ht : w.Twin w') (hrest : w.stack = [])
    (hc : w.Catalogued) (horders : orders os' = orders os) (hknown : ∀ ref ∈ e.refs, w'.knows ref = true)
    (hplay : w.play e.move = some out) (hcompletes : Completes makes e.picks os out (v, said)) :
    KeepsUp makes e w' os' v said := by
  obtain ⟨move, picks⟩ := e
  cases move with
  | call r op =>
    by_cases hop : op.isTabular = true
    · cases op with
      | find name filtered => exact keepsUp_find ht hrest hplay hcompletes
      | users ref => exact keepsUp_users ht hrest (hknown ref (List.mem_singleton.mpr rfl)) hplay hcompletes
      | _ => cases hop
    · rw [Bool.not_eq_true] at hop
      obtain ⟨hturn, hallows, g, hg, rfl⟩ := calls_of_play hplay
      obtain ⟨g', hg', htwin⟩ := ht.registries r g hg
      have hplay' := play_call (ht.isClientsTurn.trans hturn) (ht.allows hknown hallows) hg'
      have hpar := parallel_call ht htwin hc hg hop
      have habreast : Abreast (after [.called r op] (w.call r g op)) (after [.called r op] (w'.call r g' op)) :=
        level_goesOn (.refl [.called r op]) hpar
      obtain ⟨⟨v', said'⟩, hcompletes', hv, hsaid⟩ := abreast_completes hcompletes habreast horders
      refine ⟨_, v', said', hplay', hcompletes', hv, hsaid.orders, .plain (fun r' op' heq => ?_) hsaid⟩
      obtain ⟨rfl, rfl⟩ := Move.call.inj heq
      exact hop
  | answer a =>
    simp only [play, answer?, hrest] at hplay
    cases hplay
  | tick =>
    simp only [play, tick?, hrest] at hplay
    cases hplay
  | hold h =>
    by_cases hmay : (w.isClientsTurn && w.isAlive h) = true
    · have hmay' : (w'.isClientsTurn && w'.isAlive h) = true := by rwa [ht.isClientsTurn, ht.isAlive]
      rw [play, if_pos hmay] at hplay
      exact keepsUp_held ht hrest (h :: ·) (fun _ _ heq => by cases heq) (Option.some.inj hplay).symm
        (by rw [play, if_pos hmay']) hcompletes
    · rw [play, if_neg hmay] at hplay
      cases hplay
  | drop h =>
    by_cases hmay : (w.isClientsTurn && w.held.contains h) = true
    · have hmay' : (w'.isClientsTurn && w'.held.contains h) = true := by rwa [ht.isClientsTurn, ht.held]
      rw [play, if_pos hmay] at hplay
      exact keepsUp_held ht hrest (List.erase · h) (fun _ _ heq => by cases heq) (Option.some.inj hplay).symm
        (by rw [play, if_pos hmay']) hcompletes
    · rw [play, if_neg hmay] at hplay
      cases hplay

/-! ## What orderly lookups find -/

theorem replied_append (os os' : List (Occurrence α)) : replied (os ++ os') = replied os ++ replied os' :=
  List.flatMap_append

theorem replied_told (r : Nat) (refs : List Reference) : replied (refs.map (Occurrence.minted (α := α) r)) = [] := by
  rw [replied, List.flatMap_map]
  exact List.flatMap_eq_nil_iff.mpr fun _ _ => rfl

theorem knows_of_returnAll (hturn : w.isClientsTurn = true) (hs : List Handle) :
    (w.returnAll r hs).1.stack = w.stack ∧
      ∀ ref ∈ replied (w.returnAll r hs).2, (w.returnAll r hs).1.knows ref = true := by
  rw [returnAll_eq hturn]
  refine ⟨(mintAll_idle r hs w).2.1, fun ref href => ?_⟩
  rw [told_mintAll, replied_append, replied_told] at href
  refine knows_of_mintAll ?_
  simpa [replied, Reply.mentions] using href

theorem knows_of_orderly {op : Operation α} (hop : op.isOrderly = true) (hturn : w.isClientsTurn = true) :
    (w.call r g op).1.stack = w.stack ∧ ∀ ref ∈ replied (w.call r g op).2, (w.call r g op).1.knows ref = true := by
  cases op with
  | findOne name =>
    simp only [call, findOne]
    cases w.leastId ((w.active g).filter (w.hasName name)) with
    | none =>
      simp only
      rw [finish_eq hturn (by simp)]
      exact ⟨rfl, by simp [replied, Reply.mentions]⟩
    | some h =>
      have hturn' := (isClientsTurn_eq (stack_mint w r h)).trans hturn
      simp only
      rw [finish_eq hturn' (by simp)]
      refine ⟨stack_mint w r h, fun ref href => ?_⟩
      rw [World.after, told_mint, replied_append, replied_told] at href
      exact knows_of_mint (by simpa [replied, Reply.mentions] using href)
  | registered b => exact knows_of_returnAll hturn _
  | hooks => exact knows_of_returnAll hturn _
  | _ => cases hop

theorem knows_of_finds {e : Errand α} {said : List (Occurrence α)} (hrest : w.stack = [])
    (hplay : w.play e.move = some out) (hcompletes : Completes makes e.picks os out (v, said)) :
    ∀ ref ∈ e.finds said, v.knows ref = true := by
  intro ref href
  unfold Errand.finds at href
  split at href
  · rename_i r op hmove
    split at href
    · rename_i hop
      rw [hmove] at hplay
      obtain ⟨hturn, -, g, -, rfl⟩ := calls_of_play hplay
      obtain ⟨hstack, hknows⟩ := knows_of_orderly (r := r) (g := g) hop hturn
      obtain ⟨rfl, rfl⟩ := Prod.mk.inj (hcompletes.at_once (hstack.trans hrest))
      exact hknows ref href
    · cases href
  · cases href

/-! ## Scripts -/

theorem tallied_completes {setups : List (Config × Bool)} {m : Move α} (htallied : Tallied setups w os)
    (hplay : w.play m = some out) (hcompletes : Completes makes picks os out last) : Tallied setups last.1 (os ++ last.2) :=
  hcompletes.keeps (P := Tallied setups) (fun _ _ _ _ ht hplay => tallied_play ht hplay) (tallied_play htallied hplay)

theorem knows_completes {m : Move α} {ref : Reference} (hknown : w.knows ref = true) (hplay : w.play m = some out)
    (hcompletes : Completes makes picks os out last) : last.1.knows ref = true :=
  hcompletes.keeps (P := fun u _ => u.knows ref = true) (fun _ _ _ _ hknown hplay => (handsOut_play hplay).knows hknown)
    ((handsOut_play hplay).knows hknown)

def Agree (diary diary' : List (Errand α × List (Occurrence α))) : Prop :=
  List.Forall₂ (fun x y => y.1 = x.1 ∧ Matches x.1 x.2 y.2) diary diary'

theorem walks_twin {setups : List (Config × Bool)} {diary : List (Errand α × List (Occurrence α))}
    {seen : List Reference} {u : World α} (hwalks : Walks makes p diary u) (ht : p.1.Twin w') (hrest : p.1.stack = [])
    (htallied : Tallied setups p.1 p.2) (horders : orders os' = orders p.2)
    (hseen : ∀ ref ∈ seen, w'.knows ref = true) (htraced : Traced seen diary) :
    ∃ diary' u', Walks makes (w', os') diary' u' ∧ u.Twin u' ∧ Agree diary diary' := by
  induction hwalks generalizing w' os' seen with
  | done => exact ⟨[], w', .done, ht, .nil⟩
  | @errand w v u os said e out diary hplay hcompletes _ ih =>
    obtain ⟨hrefs, hmore⟩ := htraced
    obtain ⟨out', v', said', hplay', hcompletes', hv, hsaid, hmatches⟩ :=
      keepsUp_errand ht hrest htallied.catalogued horders (fun ref href => hseen ref (hrefs ref href)) hplay hcompletes
    have hknows : ∀ ref ∈ seen ++ e.finds said, v'.knows ref = true := by
      intro ref href
      rcases List.mem_append.mp href with href | href
      · exact knows_completes (hseen ref href) hplay' hcompletes'
      · rw [← hmatches.finds] at href
        exact knows_of_finds (ht.stack.trans hrest) hplay' hcompletes' ref href
    have horders' : orders (os' ++ said') = orders (os ++ said) := by rw [orders_append, orders_append, horders, hsaid]
    obtain ⟨diary', u', hwalks', hu, hagree⟩ :=
      ih hv hcompletes.at_rest (tallied_completes htallied hplay hcompletes) horders' hknows hmore
    exact ⟨(e, said') :: diary', u', .errand hplay' hcompletes' hwalks', hu, .cons ⟨rfl, hmatches⟩ hagree⟩

theorem twin_start {setups setups' : List (Config × Bool)} (hsetups : List.Forall₂ Resized setups setups') :
    (start setups : World α).Twin (start setups') where
  registrations := rfl
  held := rfl
  stack := rfl
  size := by simpa [start] using hsetups.length_eq.symm
  registries r g hg := by
    obtain ⟨hlength, hresized⟩ := List.forall₂_iff_get.mp hsetups
    simp only [start, List.getElem?_toArray, List.getElem?_map] at hg ⊢
    obtain ⟨s, hs, rfl⟩ := Option.map_eq_some_iff.mp hg
    obtain ⟨hlt, rfl⟩ := List.getElem?_eq_some_iff.mp hs
    have hlt' : r < setups'.length := hlength ▸ hlt
    refine ⟨_, by rw [List.getElem?_eq_getElem hlt', Option.map_some], ?_⟩
    rw [show setups'[r] = _ from hresized r hlt hlt']
    exact Registry.twin_ofConfig (by rfl) (by rfl) setups[r].2

/-- Whatever the initial capacities, the same script has the same diary, but for the orders that come
    from tables, and leads to the same registrations. -/
theorem same_at_any_capacity {setups setups' : List (Config × Bool)} (hsetups : List.Forall₂ Resized setups setups')
    {diary : List (Errand α × List (Occurrence α))} {u : World α} (hwalks : Walks makes (start setups, []) diary u)
    (htraced : Traced [] diary) :
    ∃ diary' u', Walks makes (start setups', []) diary' u' ∧ u'.registrations = u.registrations ∧ Agree diary diary' ∧
      ∀ other last, Walks makes (start setups', []) other last → other.map (·.1) = diary.map (·.1) →
        other = diary' ∧ last = u' := by
  have horders : orders ([] : List (Occurrence α)) = orders [] := rfl
  obtain ⟨diary', u', hwalks', hu, hagree⟩ := walks_twin hwalks (twin_start hsetups) rfl (tallied_start setups) horders
    (fun ref href => by cases href) htraced
  refine ⟨diary', u', hwalks', hu.registrations, hagree, fun other last hother hscript => ?_⟩
  refine hwalks'.unique hother (hscript.trans ?_)
  clear hother hscript hwalks' hwalks htraced
  induction hagree with
  | nil => rfl
  | cons hhead _ ih => rw [List.map_cons, List.map_cons, ih, hhead.1]

/-- Two bundles publish, both use one of the services, and it is withdrawn. -/
def sharedThenWithdrawn : List (Errand Nat) :=
  [.call 0 (.register 1 "a" .factory none), .call 0 (.register 2 "b" (.object 7) none), .call 0 (.findOne "a"),
    .call 0 (.get 1 ⟨1, 1, 0⟩), .call 0 (.get 2 ⟨1, 1, 0⟩), .call 0 (.users ⟨1, 1, 0⟩), .call 0 (.find none true),
    .call 0 (.unregister 1 0), .call 0 .count].map fun m => ⟨m, fun _ => true⟩

def serial : Factories Nat := fun requests _ _ => some requests.length

def wentBack (diary : List (Errand Nat × List (Occurrence Nat))) : List BundleId :=
  (diary.flatMap (·.2)).filterMap fun
    | .answered (.takeBack _ b _) _ => some b
    | _ => none

theorem same_at_any_capacity_sharedThenWithdrawn : ∃ diary u diary' u',
    List.Forall₂ Resized [({ Config.standard with initialCapacity := 4 }, true)] [(Config.standard, true)] ∧
    Walks serial (start [({ Config.standard with initialCapacity := 4 }, true)], []) diary u ∧ Traced [] diary ∧
    diary.map (·.1) = sharedThenWithdrawn ∧ Walks serial (start [(Config.standard, true)], []) diary' u' ∧
    wentBack diary = [1, 2] ∧ wentBack diary' = [2, 1] ∧ u'.registrations = u.registrations ∧ Agree diary diary' := by
  have hany : (walk? serial 20 (start [({ Config.standard with initialCapacity := 4 }, true)], []) sharedThenWithdrawn).any
      (fun x => decide (Traced [] x.1 ∧ wentBack x.1 = [1, 2])) = true := by decide +kernel
  have hany' : (walk? serial 20 (start [(Config.standard, true)], []) sharedThenWithdrawn).any
      (fun x => decide (wentBack x.1 = [2, 1])) = true := by decide +kernel
  obtain ⟨⟨diary, u⟩, hwalk, hdiary⟩ := (Option.any_eq_true _ _).mp hany
  obtain ⟨⟨other, last⟩, hwalk', hother⟩ := (Option.any_eq_true _ _).mp hany'
  obtain ⟨htraced, hback⟩ := of_decide_eq_true hdiary
  obtain ⟨hwalks, hscript⟩ := walks_of_walk? hwalk
  obtain ⟨hwalks', hscript'⟩ := walks_of_walk? hwalk'
  have hsetups : List.Forall₂ Resized [({ Config.standard with initialCapacity := 4 }, true)] [(Config.standard, true)] :=
    .cons rfl .nil
  obtain ⟨diary', u', hdone, hregistrations, hagree, hunique⟩ := same_at_any_capacity hsetups hwalks htraced
  obtain ⟨rfl, rfl⟩ := hunique other last hwalks' (hscript'.trans hscript.symm)
  exact ⟨diary, u, other, last, hsetups, hwalks, htraced, hscript, hdone, hback, of_decide_eq_true hother, hregistrations,
    hagree⟩

end World

end Switchboard
