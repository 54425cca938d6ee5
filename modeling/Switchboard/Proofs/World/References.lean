/-
  Switchboard.Proofs.World.References — the references that registries hand out.

  A registry keeps every reference it handed out. Whatever a move does, those that are new are the
  ones told of on the way, in that order, and their ids go on from the last (`HandsOut`). So it is
  over every run (`handsOut_run`), and an id never comes twice.
-/

import Switchboard.Proofs.World.Standing

namespace Switchboard

variable {α : Type}

def Occurrence.mintedAt? (r : Nat) : Occurrence α → Option Reference
  | minted q ref => if q = r then some ref else none
  | _ => none

def mintedAt (os : List (Occurrence α)) (r : Nat) : List Reference := os.filterMap (·.mintedAt? r)

theorem mintedAt_append (os os' : List (Occurrence α)) (r : Nat) :
    mintedAt (os ++ os') r = mintedAt os r ++ mintedAt os' r :=
  List.filterMap_append ..

theorem mintedAt_asks (f : Frame α) (r : Nat) : mintedAt f.asks r = [] := by
  refine List.filterMap_eq_nil_iff.mpr fun o ho => ?_
  obtain ⟨q, -, rfl⟩ := List.mem_map.mp ho
  rfl

namespace Registry

structure Hands (g k : Registry α) (refs : List Reference) : Prop where
  references : k.references.toList = g.references.toList ++ refs
  ids : refs.map (·.id) = List.range' (g.references.size + 1) refs.length

variable {g k l : Registry α} {refs refs' : List Reference}

theorem Hands.same (hk : k.references = g.references) : g.Hands k [] where
  references := by rw [hk, List.append_nil]
  ids := rfl

theorem Hands.trans (h : g.Hands k refs) (h' : k.Hands l refs') : g.Hands l (refs ++ refs') where
  references := by rw [h'.references, h.references, List.append_assoc]
  ids := by
    have hsize : k.references.size = g.references.size + refs.length := by
      rw [← Array.length_toList, h.references, List.length_append, Array.length_toList]
    rw [List.map_append, h.ids, h'.ids, hsize, List.length_append, Nat.add_right_comm]
    exact List.range'_append_1 ..

theorem Hands.knows (h : g.Hands k refs) {ref : Reference} (hknown : g.knows ref = true) : k.knows ref = true := by
  obtain ⟨hpos, hat⟩ := knows_iff.mp hknown
  refine knows_iff.mpr ⟨hpos, ?_⟩
  rw [← Array.getElem?_toList] at hat ⊢
  rw [h.references, List.getElem?_append_left (List.getElem?_eq_some_iff.mp hat).1, hat]

theorem hands_mint (g : Registry α) (service : ServiceId) (h : Handle) :
    g.Hands (g.mint service h).2 [(g.mint service h).1] where
  references := Array.toList_push
  ids := rfl

/-- No id comes twice. -/
theorem Hands.nodup (h : g.Hands k refs) : (refs.map (·.id)).Nodup := by
  rw [h.ids]
  exact List.nodup_range'

end Registry

namespace World

variable {w w' v : World α} {g k : Registry α} {out : Outcome α} {os : List (Occurrence α)} {r : Nat} {h : Handle}
  {b : BundleId} {ref : Reference} {f : Frame α} {m : Move α}

/-- What is told to have been handed out is what each registry handed out. -/
structure HandsOut (w : World α) (out : Outcome α) : Prop where
  each : ∀ (r : Nat) (g : Registry α), w.registries[r]? = some g →
    ∃ k, out.1.registries[r]? = some k ∧ g.Hands k (mintedAt out.2 r)

theorem HandsOut.trans (h : HandsOut w (w', os)) (h' : HandsOut w' out) : HandsOut w (after os out) := by
  refine ⟨fun r g hg => ?_⟩
  obtain ⟨k, hk, hands⟩ := h.each r g hg
  obtain ⟨l, hl, hands'⟩ := h'.each r k hk
  refine ⟨l, hl, ?_⟩
  rw [World.after, mintedAt_append]
  exact hands.trans hands'

/-! ## Moves that hand out nothing -/

theorem handsOut_same (hset : out.1.registries = w.registries) (hos : ∀ r, mintedAt out.2 r = []) : HandsOut w out := by
  refine ⟨fun r g hg => ?_⟩
  rw [hset, hos]
  exact ⟨g, hg, .same rfl⟩

theorem HandsOut.after (h : HandsOut w out) (hos : ∀ r, mintedAt os r = []) : HandsOut w (after os out) := by
  have hsame : HandsOut w (w, os) := handsOut_same rfl hos
  exact hsame.trans h

theorem HandsOut.of_eq (h : HandsOut v out) (hset : v.registries = w.registries) : HandsOut w out := by
  have hsame : HandsOut w (v, []) := handsOut_same hset fun _ => rfl
  exact hsame.trans h

/-- A registry is changed, but not what it handed out. -/
theorem HandsOut.set (h : HandsOut v out) (hg : w.registries[r]? = some g) (hk : k.references = g.references)
    (hset : v.registries = (w.setRegistry r k).registries) : HandsOut w out := by
  have hchanged : HandsOut w (v, []) := ⟨fun q l hl => ?_⟩
  · exact hchanged.trans h
  show ∃ k', v.registries[q]? = some k' ∧ l.Hands k' []
  rw [hset, setRegistry, Array.getElem?_setIfInBounds]
  split
  case isTrue hr =>
    subst hr
    obtain rfl := Option.some.inj (hg.symm.trans hl)
    rw [if_pos (Array.getElem?_eq_some_iff.mp hg).1]
    exact ⟨k, rfl, .same hk⟩
  case isFalse => exact ⟨l, hl, .same rfl⟩

theorem handsOut_place (w : World α) (f : Frame α) : HandsOut w (w.place f) := handsOut_same rfl (mintedAt_asks f)

theorem handsOut_finish (w : World α) (reply : Reply α) : HandsOut w (w.finish reply) := by
  unfold finish
  split
  · exact handsOut_same rfl fun _ => rfl
  · exact handsOut_same rfl fun _ => rfl

theorem handsOut_release (w : World α) (r : Nat) (h : Handle) (due : List (BundleId × α)) (e : Ending α) :
    HandsOut w (w.release r h due e) :=
  handsOut_place ..

/-! ## Lookups -/

theorem handsOut_mint (w : World α) (r : Nat) (h : Handle) : HandsOut w (w.mint r h).2 := by
  unfold mint
  cases hg : w.registries[r]? with
  | none => exact handsOut_same rfl fun _ => rfl
  | some g =>
    refine ⟨fun q l hl => ?_⟩
    show ∃ k, (w.registries.setIfInBounds r _)[q]? = some k ∧ l.Hands k (mintedAt [.minted r _] q)
    rw [Array.getElem?_setIfInBounds]
    by_cases hr : r = q
    · subst hr
      obtain rfl := Option.some.inj (hg.symm.trans hl)
      rw [if_pos rfl, if_pos (Array.getElem?_eq_some_iff.mp hg).1]
      refine ⟨_, rfl, ?_⟩
      simpa [mintedAt, Occurrence.mintedAt?, Registry.mint] using g.hands_mint (w.serviceId h) h
    · rw [if_neg hr]
      refine ⟨l, hl, ?_⟩
      simpa [mintedAt, Occurrence.mintedAt?, hr] using Registry.Hands.same (g := l) rfl

theorem handsOut_mintAll (r : Nat) (hs : List Handle) (w : World α) : HandsOut w (w.mintAll r hs).2 := by
  induction hs generalizing w with
  | nil => exact handsOut_same rfl fun _ => rfl
  | cons h hs ih => exact (handsOut_mint w r h).trans (ih (w.mint r h).2.1)

theorem handsOut_returnAll (w : World α) (r : Nat) (hs : List Handle) : HandsOut w (w.returnAll r hs) :=
  (handsOut_mintAll r hs w).trans (handsOut_finish ..)

theorem handsOut_filterNext (w : World α) (r : Nat) (found : List Reference) (cs : List (Handle × Properties)) :
    HandsOut w (w.filterNext r found cs) := by
  unfold filterNext
  split
  · exact handsOut_finish ..
  · exact handsOut_place ..

theorem handsOut_find (w : World α) (r : Nat) (g : Registry α) (name : Option String) (filtered : Bool) :
    HandsOut w (w.find r g name filtered) := by
  unfold find
  split
  · exact handsOut_filterNext ..
  · exact handsOut_returnAll ..

theorem handsOut_findOne (w : World α) (r : Nat) (g : Registry α) (name : String) : HandsOut w (w.findOne r g name) := by
  unfold findOne
  split
  · exact handsOut_finish ..
  · exact (handsOut_mint ..).trans (handsOut_finish ..)

/-! ## Other operations -/

theorem handsOut_report (w : World α) (r : Nat) (g : Registry α) (h : Handle) (old : Properties) (reply : Reply α) :
    HandsOut w (w.report r g h old reply) := by
  unfold report
  split
  · exact handsOut_place ..
  · exact handsOut_finish ..

theorem handsOut_register (hg : w.registries[r]? = some g) (b : BundleId) (name : String) (source : Source α)
    (p : Option Properties) : HandsOut w (w.register r g b name source p) := by
  unfold register
  split
  · exact handsOut_finish ..
  · dsimp only
    split
    · exact .set ((handsOut_place ..).after fun _ => rfl) hg (k := g.enlist b name w.registrations.size) rfl rfl
    · exact .set ((handsOut_finish ..).after fun _ => rfl) hg (k := g.enlist b name w.registrations.size) rfl rfl

theorem handsOut_setProperties (w : World α) (r : Nat) (g : Registry α) (h : Handle) (p : Properties) :
    HandsOut w (w.setProperties r g h p) := by
  unfold setProperties
  split
  · exact handsOut_finish ..
  · split
    · dsimp only
      exact .of_eq ((handsOut_report ..).after fun _ => rfl) rfl
    · exact handsOut_finish ..

theorem handsOut_withdrawal (hg : w.registries[r]? = some g) (hw : w.retire? r g h = some w')
    (hset : v.registries = w'.registries) : HandsOut w (v.withdrawal r g h) := by
  obtain ⟨x, -, -, -, rfl⟩ := retire?_eq_some hw
  exact .set ((handsOut_place ..).after fun _ => rfl) hg (k := g.unlist x.bundle h) rfl hset

theorem handsOut_withdraw (hg : w.registries[r]? = some g) (h : Handle) : HandsOut w (w.withdraw r g h) := by
  unfold withdraw
  split
  case h_1 w' hw => exact handsOut_withdrawal hg hw rfl
  case h_2 => exact (handsOut_finish ..).after fun _ => rfl

theorem handsOut_unregister (hg : w.registries[r]? = some g) (b : BundleId) (h : Handle) :
    HandsOut w (w.unregister r g b h) := by
  unfold unregister
  split
  · exact handsOut_finish ..
  · split
    · exact handsOut_withdraw hg h
    · exact handsOut_finish ..

theorem handsOut_unregisterNext (hg : w.registries[r]? = some g) (snapshot rest : List Handle) (n : Nat) :
    HandsOut w (w.unregisterNext r g snapshot n rest) := by
  unfold unregisterNext
  split
  · exact handsOut_finish ..
  · rename_i h rest
    split
    case h_1 w' hw =>
      have hplaced := handsOut_withdrawal (v := (w'.place (.unregistering r snapshot rest (n + 1))).1) hg hw rfl
      exact hplaced.after (mintedAt_asks _)
    case h_2 => exact (handsOut_place ..).after fun _ => rfl

theorem handsOut_drain (hg : w.registries[r]? = some g) (h : Handle) : HandsOut w (w.drain r g h) := by
  unfold drain
  exact .set ((handsOut_release ..).after fun _ => rfl) hg (k := { g with ledger := (g.ledger.drain h).ledger }) rfl rfl

theorem handsOut_get (hg : w.registries[r]? = some g) (b : BundleId) (ref : Reference) : HandsOut w (w.get r g b ref) := by
  cases hx : w.behind? ref with
  | none =>
    rw [get_of_invalid w r g b hx]
    exact handsOut_finish ..
  | some x =>
    rw [get_of_valid w r g b hx]
    exact .set ((handsOut_place ..).after fun _ => rfl) hg (k := { g with ledger := (g.ledger.acquire b ref).2 }) rfl rfl

theorem handsOut_settle (hg : w.registries[r]? = some g) (h : Handle) (b : BundleId) (ref : Reference) (fresh : Bool)
    (o : Option α) : HandsOut w (w.settle r g h b ref fresh o) := by
  unfold settle
  refine .set ((handsOut_release ..).after fun q => ?_) hg
    (k := { g with ledger := (w.settlement g h b ref fresh o).ledger }) rfl rfl
  cases o <;> rfl

/-- One release changes a ledger at most. -/
theorem handsOut_ungetOne (hg : w.registries[r]? = some g) (b : BundleId) (ref : Reference) :
    HandsOut w (w.ungetOne r g b ref).2.2 := by
  have hset : ∀ (l : Ledger α) (o : Occurrence α), (∀ q, o.mintedAt? q = none) →
      HandsOut w (w.setRegistry r { g with ledger := l }, [o]) := by
    intro l o ho
    refine .set (handsOut_same rfl fun q => ?_) hg (k := { g with ledger := l }) rfl rfl
    simp [mintedAt, ho]
  rcases ungetOne_cases w r g b ref with hone | ⟨left, l, -, hone⟩ | ⟨cached, l, -, hone⟩
  · rw [hone]
    exact handsOut_same rfl fun _ => rfl
  · rw [hone]
    exact hset l _ fun _ => rfl
  · rw [hone]
    exact hset l _ fun _ => rfl

theorem handsOut_unget (hg : w.registries[r]? = some g) (b : BundleId) (ref : Reference) :
    HandsOut w (w.unget r g b ref) := by
  have hone := handsOut_ungetOne hg b ref
  unfold unget
  split
  · rename_i heq
    rw [heq] at hone
    exact hone.trans (handsOut_release ..)
  · rename_i heq
    rw [heq] at hone
    exact hone.trans (handsOut_finish ..)

theorem handsOut_ungetNext (hg : w.registries[r]? = some g) (b : BundleId) (rest : List Reference) :
    HandsOut w (w.ungetNext r g b rest) := by
  unfold ungetNext
  split
  · exact handsOut_finish ..
  · rename_i ref rest
    have hone := handsOut_ungetOne hg b ref
    split
    · rename_i heq
      rw [heq] at hone
      exact HandsOut.trans (hone.trans (handsOut_place ..)) (handsOut_release ..)
    · rename_i heq
      rw [heq] at hone
      exact hone.trans (handsOut_place ..)

theorem handsOut_conclude (w : World α) (r : Nat) (h : Handle) (e : Ending α) : HandsOut w (w.conclude r h e) := by
  unfold conclude
  cases e with
  | withdrawn => exact (handsOut_finish ..).after fun _ => rfl
  | got b ref o => exact (handsOut_finish ..).after fun _ => rfl
  | ungot => exact handsOut_finish ..

/-! ## Every move -/

theorem handsOut_call (hg : w.registries[r]? = some g) (op : Operation α) : HandsOut w (w.call r g op) := by
  unfold call
  cases op with
  | register b name source p => exact handsOut_register hg b name source p
  | unregister b h => exact handsOut_unregister hg b h
  | find name filtered => exact handsOut_find ..
  | findOne name => exact handsOut_findOne ..
  | registered b => exact handsOut_returnAll ..
  | hooks => exact handsOut_returnAll ..
  | get b ref => exact handsOut_get hg b ref
  | unget b ref => exact handsOut_unget hg b ref
  | setProperties h p => exact handsOut_setProperties ..
  | modified h old => exact handsOut_report ..
  | unregisterAll b => exact handsOut_place ..
  | ungetAll b => exact handsOut_place ..
  | _ => exact handsOut_finish ..

theorem handsOut_resume? {a : Answer α} (ho : v.resume? f a = some out) : HandsOut v out := by
  cases resumes_of ho with
  | announced => exact handsOut_finish ..
  | reported => exact handsOut_finish ..
  | told => exact handsOut_place ..
  | rejected => exact handsOut_filterNext ..
  | accepted => exact (handsOut_mint ..).trans (handsOut_filterNext ..)
  | supplied => exact handsOut_place ..
  | handed => exact handsOut_place ..

theorem handsOut_advance? (hout : v.advance? f = some out) : HandsOut v out := by
  cases advances_of hout with
  | drains hg h => exact handsOut_drain hg h
  | settles hg => exact handsOut_settle hg ..
  | concludes => exact handsOut_conclude ..
  | ungets hg => exact handsOut_ungetNext hg ..
  | unregisters hg => exact handsOut_unregisterNext hg ..

theorem handsOut_goesOn (hgo : GoesOn v f out) : HandsOut v out := by
  rcases hgo with ⟨q, a, o, -, ho, rfl⟩ | hout
  · exact (handsOut_resume? ho).after fun _ => rfl
  · exact handsOut_advance? hout

theorem handsOut_play (hplay : w.play m = some out) : HandsOut w out := by
  cases moves_of_play hplay with
  | holds _ held hout =>
    subst hout
    exact handsOut_same rfl fun _ => rfl
  | calls _ _ hg hout =>
    subst hout
    exact (handsOut_call hg _).after fun _ => rfl
  | goesOn _ hgo => exact (handsOut_goesOn hgo).of_eq rfl

/-! ## References that are known -/

theorem HandsOut.knows {ref : Reference} (h : HandsOut w out) (hknown : w.knows ref = true) : out.1.knows ref = true := by
  obtain ⟨i, hi, hknown⟩ := Array.any_eq_true.mp hknown
  obtain ⟨k, hk, hands⟩ := h.each i _ (Array.getElem?_eq_getElem hi)
  obtain ⟨hlt, rfl⟩ := Array.getElem?_eq_some_iff.mp hk
  exact Array.any_eq_true.mpr ⟨i, hlt, hands.knows hknown⟩

theorem knows_of_mint {ref : Reference} (href : ref ∈ (w.mint r h).1) : (w.mint r h).2.1.knows ref = true := by
  unfold mint at href ⊢
  split at href
  · cases href
  · rename_i g hg
    obtain rfl := Option.some.inj href
    obtain ⟨hlt, -⟩ := Array.getElem?_eq_some_iff.mp hg
    refine Array.any_eq_true.mpr ⟨r, by simpa [setRegistry] using hlt, ?_⟩
    simp [setRegistry, Registry.knows, Registry.mint]

theorem knows_of_mintAll {hs : List Handle} {ref : Reference} (href : ref ∈ (w.mintAll r hs).1) :
    (w.mintAll r hs).2.1.knows ref = true := by
  induction hs generalizing w with
  | nil => cases href
  | cons t hs ih =>
    rcases List.mem_append.mp href with href | href
    · exact (handsOut_mintAll r hs _).knows (knows_of_mint (Option.mem_toList.mp href))
    · exact ih href

/-! ## What is told of lookups -/

theorem told_mint (w : World α) (r : Nat) (h : Handle) : (w.mint r h).2.2 = (w.mint r h).1.toList.map (.minted r) := by
  unfold mint
  split <;> rfl

theorem told_mintAll (w : World α) (r : Nat) (hs : List Handle) :
    (w.mintAll r hs).2.2 = (w.mintAll r hs).1.map (.minted r) := by
  induction hs generalizing w with
  | nil => rfl
  | cons h hs ih =>
    simp only [mintAll, List.map_append]
    rw [told_mint, ih]

theorem mintedAt_told (r : Nat) (refs : List Reference) : mintedAt (refs.map (Occurrence.minted (α := α) r)) r = refs := by
  simp [mintedAt, Occurrence.mintedAt?]

/-- Whatever happens in a run, registries hand out references one after the other, and tell so. -/
theorem handsOut_run {ms : List (Move α)} (hrun : w.run ms = some out) : HandsOut w out :=
  run_induction (P := fun v os => HandsOut w (v, os)) (fun _ _ _ _ hv hplay => hv.trans (handsOut_play hplay)) ms w [] out
    (handsOut_same rfl fun _ => rfl) hrun

end World

end Switchboard
