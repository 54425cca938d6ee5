/-
  Switchboard.Proofs.World.Step — all that a move can do.

  A move works on what is below the innermost operation: the client's calls on the world as it
  is, a continuation on the world without its innermost frame (`World.onto`). Either way it
  leaves what lies below alone and puts frames on top.

  Most moves only look things up, change properties, hand out references or pass control
  around (`Idles`). Those that do more are publishing, the parts of a withdrawal, of a `get`
  and of an `unget`, and the hand-over of an object to its factory (`Step`). Every move is a step
  (`play_step`): the operations are opened here, and an invariant is a case analysis on `Step`.

  Of what happens, only what moves phases, uses or objects is looked at (`gist`).
-/

import Switchboard.Proofs.Registry.State
import Switchboard.World.Run

namespace Switchboard

variable {α : Type}

/-! ## The gist of what happens -/

def Occurrence.matters : Occurrence α → Bool
  | asked (.supply ..) | asked (.takeBack ..) | answered (.supply ..) _ => true
  | retired .. | drained .. | acquired .. | decided .. | released .. | flushed .. => true
  | _ => false

def gist (os : List (Occurrence α)) : List (Occurrence α) := os.filter Occurrence.matters

theorem gist_append (os os' : List (Occurrence α)) : gist (os ++ os') = gist os ++ gist os' :=
  List.filter_append ..

namespace Frame

def asks (f : Frame α) : List (Occurrence α) := f.question?.toList.map .asked

/-- Neither a withdrawal before its drain, nor a `get` before its decision, nor objects on
    their way back. -/
def isAside : Frame α → Bool
  | announcing .. | reporting .. | filtering .. | releasing _ _ [] _ | ungetting .. | unregistering .. => true
  | withdrawing .. | draining .. | resolving .. | settling .. | releasing _ _ (_ :: _) _ => false

def refs : Frame α → List Reference
  | resolving _ _ _ ref | settling _ _ _ ref _ _ => [ref]
  | ungetting _ _ rest => rest
  | _ => []

theorem gist_asks_of_aside {f : Frame α} (h : f.isAside) : gist f.asks = [] := by
  cases f with
  | releasing r h due e =>
    cases due with
    | nil => rfl
    | cons p due => cases h
  | withdrawing => cases h
  | draining => cases h
  | resolving => cases h
  | settling => cases h
  | _ => rfl

end Frame

/-! ## Worlds that agree but for properties and references -/

def Registration.core (x : Registration α) : Registration α := { x with properties := .empty }

namespace World

structure Alike (w w' : World α) : Prop where
  registration : ∀ h, (w'.registration? h).map Registration.core = (w.registration? h).map Registration.core
  registry : ∀ (r : Nat) (g : Registry α), w.registries[r]? = some g → ∃ g', w'.registries[r]? = some g' ∧ g.Minted g'
  size : w'.registries.size = w.registries.size

theorem Alike.refl (w : World α) : w.Alike w := ⟨fun _ => rfl, fun _ g hg => ⟨g, hg, .refl g⟩, rfl⟩

theorem Alike.trans {w w' w'' : World α} (h : w.Alike w') (h' : w'.Alike w'') : w.Alike w'' := by
  refine ⟨fun t => (h'.registration t).trans (h.registration t), fun r g hg => ?_, h'.size.trans h.size⟩
  obtain ⟨g', hg', hm⟩ := h.registry r g hg
  obtain ⟨g'', hg'', hm'⟩ := h'.registry r g' hg'
  exact ⟨g'', hg'', hm.trans hm'⟩

/-- Alike worlds differ in holds and operations in flight as they like. -/
theorem Alike.of_eq {w w' : World α} (h : w'.registrations = w.registrations) (h' : w'.registries = w.registries) :
    w.Alike w' := by
  refine ⟨fun t => ?_, fun r g hg => ⟨g, ?_, .refl g⟩, congrArg _ h'⟩
  · rw [registration?, registration?, h]
  · rw [h']
    exact hg

def onto (w : World α) (top : Option (Frame α)) : World α := { w with stack := top.toList ++ w.stack }

/-- Does an operation come upon the reference, in its own frame or in a ledger? -/
def meets (w : World α) (top : Option (Frame α)) (ref : Reference) : Prop :=
  (∃ f ∈ top, ref ∈ f.refs) ∨ ∃ (r : Nat) (g : Registry α) (b : BundleId), w.registries[r]? = some g ∧ ref ∈ g.ledger.references b

/-- A move after which the world is as before but for properties, references, holds and an
    operation that has no phase, use or object in its hands. -/
structure Idles (w : World α) (top : Option (Frame α)) (out : Outcome α) : Prop where
  alike : w.Alike out.1
  stack : ∃ f, out.1.stack = (w.onto f).stack ∧ ∀ k ∈ f, k.isAside ∧ ∀ ref ∈ k.refs, w.meets top ref
  quiet : gist out.2 = []

variable {w w' : World α} {top : Option (Frame α)} {out : Outcome α}

theorem Idles.after {os : List (Occurrence α)} (h : Idles w top out) (hos : gist os = []) : Idles w top (after os out) :=
  ⟨h.alike, h.stack, by rw [World.after, gist_append, hos, h.quiet, List.append_nil]⟩

theorem Alike.registry_before (h : w.Alike w') {r : Nat} {g' : Registry α} (hg' : w'.registries[r]? = some g') :
    ∃ g, w.registries[r]? = some g ∧ g.Minted g' := by
  have hr : r < w.registries.size := by
    rw [← h.size]
    exact (Array.getElem?_eq_some_iff.mp hg').1
  obtain ⟨g'', hg'', hm⟩ := h.registry r _ (Array.getElem?_eq_getElem hr)
  obtain rfl := Option.some.inj (hg''.symm.trans hg')
  exact ⟨_, Array.getElem?_eq_getElem hr, hm⟩

theorem Idles.of_alike (ha : w.Alike w') (hs : w'.stack = w.stack) (h : Idles w' top out) : Idles w top out := by
  obtain ⟨f, hf, haside⟩ := h.stack
  refine ⟨ha.trans h.alike, ⟨f, hf.trans (by rw [onto, onto, hs]), fun k hk => ⟨(haside k hk).1, fun ref href => ?_⟩⟩,
    h.quiet⟩
  rcases (haside k hk).2 ref href with htop | ⟨r, g', b, hg', hb⟩
  · exact Or.inl htop
  · obtain ⟨g, hg, hm⟩ := ha.registry_before hg'
    rw [hm.eq] at hb
    exact Or.inr ⟨r, g, b, hg, hb⟩

/-! ## Moves that idle -/

theorem idles_finish (w : World α) (top : Option (Frame α)) (reply : Reply α) : Idles w top (w.finish reply) := by
  unfold finish
  split
  · exact ⟨.refl w, ⟨none, rfl, by simp⟩, rfl⟩
  · exact ⟨.of_eq rfl rfl, ⟨none, rfl, by simp⟩, rfl⟩

theorem idles_place {f : Frame α} (hf : f.isAside) (href : ∀ ref ∈ f.refs, w.meets top ref) : Idles w top (w.place f) :=
  ⟨.of_eq rfl rfl, ⟨some f, rfl, by simpa using ⟨hf, href⟩⟩, Frame.gist_asks_of_aside hf⟩

theorem alike_mint (w : World α) (r : Nat) (h : Handle) : w.Alike (w.mint r h).2.1 := by
  unfold mint
  cases hg : w.registries[r]? with
  | none => exact .refl w
  | some g =>
    refine ⟨fun _ => rfl, fun r' g' hg' => ?_, Array.size_setIfInBounds ..⟩
    simp only [setRegistry, Array.getElem?_setIfInBounds]
    by_cases hr : r = r'
    · subst hr
      obtain rfl := Option.some.inj (hg.symm.trans hg')
      have hlt : r < w.registries.size := (Array.getElem?_eq_some_iff.mp hg).1
      exact ⟨(g.mint (w.serviceId h) h).2, by simp [hlt], .mint _ _ (.refl g)⟩
    · exact ⟨g', by simp [hr, hg'], .refl g'⟩

theorem stack_mint (w : World α) (r : Nat) (h : Handle) : (w.mint r h).2.1.stack = w.stack := by
  unfold mint
  split <;> rfl

theorem gist_mint (w : World α) (r : Nat) (h : Handle) : gist (w.mint r h).2.2 = [] := by
  unfold mint
  split <;> rfl

theorem mintAll_idle (r : Nat) (hs : List Handle) (w : World α) :
    w.Alike (w.mintAll r hs).2.1 ∧ (w.mintAll r hs).2.1.stack = w.stack ∧ gist (w.mintAll r hs).2.2 = [] := by
  induction hs generalizing w with
  | nil => exact ⟨.refl w, rfl, rfl⟩
  | cons h hs ih =>
    obtain ⟨ha, hstack, hgist⟩ := ih (w.mint r h).2.1
    refine ⟨(alike_mint w r h).trans ha, hstack.trans (stack_mint w r h), ?_⟩
    show gist ((w.mint r h).2.2 ++ _) = []
    rw [gist_append, gist_mint, List.nil_append]
    exact hgist

theorem idles_returnAll (w : World α) (top : Option (Frame α)) (r : Nat) (hs : List Handle) :
    Idles w top (w.returnAll r hs) := by
  obtain ⟨ha, hstack, hgist⟩ := mintAll_idle r hs w
  exact .of_alike ha hstack ((idles_finish _ top _).after hgist)

theorem idles_filterNext (w : World α) (top : Option (Frame α)) (r : Nat) (found : List Reference)
    (cs : List (Handle × Properties)) : Idles w top (w.filterNext r found cs) := by
  unfold filterNext
  split
  · exact idles_finish ..
  · exact idles_place rfl (by simp [Frame.refs])

theorem idles_find (w : World α) (r : Nat) (g : Registry α) (name : Option String) (filtered : Bool) :
    Idles w none (w.find r g name filtered) := by
  unfold find
  split
  · exact idles_filterNext ..
  · exact idles_returnAll ..

theorem idles_findOne (w : World α) (r : Nat) (g : Registry α) (name : String) : Idles w none (w.findOne r g name) := by
  unfold findOne
  split
  · exact idles_finish ..
  · rename_i h _
    exact .of_alike (alike_mint w r h) (stack_mint w r h) ((idles_finish _ _ _).after (gist_mint w r h))

theorem idles_report (w : World α) (r : Nat) (g : Registry α) (h : Handle) (old : Properties) (reply : Reply α) :
    Idles w none (w.report r g h old reply) := by
  unfold report
  split
  · exact idles_place rfl (by simp [Frame.refs])
  · exact idles_finish ..

/-- Replacing properties leaves the cores alone. -/
theorem alike_updateRegistration (w : World α) (h : Handle) {f : Registration α → Registration α}
    (hf : ∀ x, (f x).core = x.core) : w.Alike (w.updateRegistration h f) := by
  refine ⟨fun t => ?_, fun r g hg => ⟨g, hg, .refl g⟩, rfl⟩
  simp only [registration?, updateRegistration, Array.getElem?_modify]
  split
  · cases w.registrations[t]? with
    | none => rfl
    | some x => simp [hf]
  · rfl

theorem idles_setProperties (w : World α) (r : Nat) (g : Registry α) (h : Handle) (p : Properties) :
    Idles w none (w.setProperties r g h p) := by
  unfold setProperties
  split
  · exact idles_finish ..
  · split
    · refine .of_alike (alike_updateRegistration w h ?_) rfl ((idles_report ..).after rfl)
      exact fun x => rfl
    · exact idles_finish ..

/-! ## All moves -/

def fetch (r : Nat) (b : BundleId) (ref : Reference) : Option α → Source α → Frame α
  | some o, _ => .settling r ref.target b ref false (some o)
  | none, .object o => .settling r ref.target b ref true (some o)
  | none, .factory => .resolving r ref.target b ref

def dueTo (w : World α) (h : Handle) (due : List (BundleId × α)) : List (BundleId × α) :=
  if w.isFactory h then due else []

def newcomer (r : Nat) (g : Registry α) (b : BundleId) (name : String) (source : Source α) (p : Option Properties) :
    Registration α :=
  ⟨g.nextService, name, b, r, source, stamped p name g.nextService, .active⟩

def enlisted (w : World α) (r : Nat) (g : Registry α) (x : Registration α) : World α :=
  { w with registrations := w.registrations.push x }.setRegistry r (g.enlist x.bundle x.name w.registrations.size)

/-- May this loop, if there is one, lie below what a move places? -/
def Under (w : World α) (top f : Option (Frame α)) : Prop :=
  ∀ k ∈ f, k.isLoop ∧ ∀ ref ∈ k.refs, w.meets top ref

/-- From the world `w` below the innermost operation `top`, which is none where the client
    calls, to what a move makes of it. -/
inductive Step (w : World α) : Option (Frame α) → Outcome α → Prop
  | idle {top : Option (Frame α)} {out : Outcome α} (htop : ∀ f ∈ top, f.isAside) (h : Idles w top out) : Step w top out
  | publish {r : Nat} {g : Registry α} (b : BundleId) (name : String) (source : Source α) (p : Option Properties)
      (held : List Handle) {f : Option (Frame α)} {os : List (Occurrence α)} (hg : w.registries[r]? = some g)
      (hf : ∀ k ∈ f, k = .announcing r w.registrations.size) (hos : gist os = []) :
      Step w none ({ (w.enlisted r g (newcomer r g b name source p)).onto f with held := held }, os)
  | retire {top f : Option (Frame α)} {r : Nat} {g : Registry α} {h : Handle} {x : Registration α}
      {os : List (Occurrence α)} (htop : ∀ k ∈ top, k.isLoop) (hf : w.Under top f) (hg : w.registries[r]? = some g)
      (hx : w.registration? h = some x) (hindexed : g.isIndexed x.bundle h = true) (hactive : w.isActive h = true)
      (hos : gist os = [.retired r h]) :
      Step w top ((((w.setPhase h .unregistering).setRegistry r (g.unlist x.bundle h)).onto f).onto
        (some (if g.hasSink then .withdrawing r h else .draining r h)), os)
  | notified {r : Nat} {h : Handle} {os : List (Occurrence α)} (hos : gist os = []) :
      Step w (some (.withdrawing r h)) (w.onto (some (.draining r h)), os)
  | drain {r : Nat} {g : Registry α} {h : Handle} {os : List (Occurrence α)} (f : Frame α)
      (hg : w.registries[r]? = some g) (hf : f = .releasing r h (w.dueTo h (g.ledger.drain h).objects) .withdrawn)
      (hos : gist os = .drained r h (g.ledger.drain h).uses :: gist f.asks) :
      Step w (some (.draining r h))
        (((w.setRegistry r { g with ledger := (g.ledger.drain h).ledger }).setPhase h .invalid).onto (some f), os)
  | acquire {r : Nat} {g : Registry α} {b : BundleId} {ref : Reference} {x : Registration α} {os : List (Occurrence α)}
      (f : Frame α) (hg : w.registries[r]? = some g) (hknown : w.knows ref = true) (hx : w.behind? ref = some x)
      (hf : f = fetch r b ref (g.ledger.acquire b ref).1 x.source) (hos : gist os = .acquired r b ref :: gist f.asks) :
      Step w none ((w.setRegistry r { g with ledger := (g.ledger.acquire b ref).2 }).onto (some f), os)
  | supplied {r : Nat} {h : Handle} {b : BundleId} {ref : Reference} {os : List (Occurrence α)} (o : Option α)
      (hos : gist os = [.answered (.supply h b) (.supplied o)]) :
      Step w (some (.resolving r h b ref)) (w.onto (some (.settling r h b ref true o)), os)
  | settle {r : Nat} {g : Registry α} {h : Handle} {b : BundleId} {ref : Reference} {fresh : Bool} {o : Option α}
      {os : List (Occurrence α)} (e : Settlement α) (f : Frame α) (hg : w.registries[r]? = some g)
      (he : e = w.settlement g h b ref fresh o)
      (hf : f = .releasing r h (w.dueTo h (e.due.map (b, ·))) (.got b ref e.object))
      (hos : gist os = .decided r b ref e.object :: gist f.asks) :
      Step w (some (.settling r h b ref fresh o)) ((w.setRegistry r { g with ledger := e.ledger }).onto (some f), os)
  | decrement {top f : Option (Frame α)} {r : Nat} {g : Registry α} {b : BundleId} {ref : Reference} {left : Nat}
      {ledger : Ledger α} {os : List (Occurrence α)} (htop : ∀ k ∈ top, k.isLoop) (hf : w.Under top f)
      (hg : w.registries[r]? = some g) (hknown : w.knows ref = true ∨ ∃ k ∈ top, ref ∈ k.refs)
      (hrel : g.ledger.release b ref.id (!w.isValid ref.target) = (.decremented left, ledger))
      (hos : gist os = [.released r b ref left]) :
      Step w top ((w.setRegistry r { g with ledger := ledger }).onto f, os)
  | flush {top f : Option (Frame α)} {r : Nat} {g : Registry α} {b : BundleId} {ref : Reference} {cached : Option α}
      {ledger : Ledger α} {os : List (Occurrence α)} (k : Option (Frame α)) (htop : ∀ k ∈ top, k.isLoop)
      (hf : w.Under top f) (hg : w.registries[r]? = some g) (hknown : w.knows ref = true ∨ ∃ k ∈ top, ref ∈ k.refs)
      (hrel : g.ledger.release b ref.id (!w.isValid ref.target) = (.flushed cached, ledger))
      (hk : k = (cached.filter fun _ => w.isAlive ref.target && w.isFactory ref.target).map fun o =>
        .releasing r ref.target [(b, o)] .ungot)
      (hos : gist os = .flushed r b ref :: gist (k.toList.flatMap Frame.asks)) :
      Step w top (((w.setRegistry r { g with ledger := ledger }).onto f).onto k, os)
  | handed {r : Nat} {h : Handle} {p : BundleId × α} {due : List (BundleId × α)} {e : Ending α}
      {os : List (Occurrence α)} (hos : gist os = gist (Frame.releasing r h due e).asks) :
      Step w (some (.releasing r h (p :: due) e)) (w.onto (some (.releasing r h due e)), os)

/-- An occurrence that matters and is no question, with the step that tells it. -/
inductive Tells (w : World α) : Option (Frame α) → Outcome α → Occurrence α → Prop
  | retired {top f k : Option (Frame α)} {r : Nat} {g : Registry α} {h : Handle} {b : BundleId} {os : List (Occurrence α)}
      (hg : w.registries[r]? = some g) (hactive : w.isActive h = true) :
      Tells w top ((((w.setPhase h .unregistering).setRegistry r (g.unlist b h)).onto f).onto k, os) (.retired r h)
  | drained {f : Option (Frame α)} {r n : Nat} {k : Registry α} {h : Handle} {os : List (Occurrence α)} :
      Tells w (some (.draining r h)) (((w.setRegistry r k).setPhase h .invalid).onto f, os) (.drained r h n)
  | acquired {out : Outcome α} {r : Nat} {b : BundleId} {ref : Reference} (hknown : w.knows ref = true) :
      Tells w none out (.acquired r b ref)
  | answered {out : Outcome α} {r : Nat} {h : Handle} {b : BundleId} {ref : Reference} {o : Option α} :
      Tells w (some (.resolving r h b ref)) out (.answered (.supply h b) (.supplied o))
  | decided {r : Nat} {h : Handle} {b : BundleId} {ref : Reference} {fresh : Bool} {o x : Option α} {k : Registry α}
      {due : List (BundleId × α)} {os : List (Occurrence α)} :
      Tells w (some (.settling r h b ref fresh o))
        ((w.setRegistry r k).onto (some (.releasing r h due (.got b ref x))), os) (.decided r b ref x)
  | released {top : Option (Frame α)} {out : Outcome α} {r left : Nat} {b : BundleId} {ref : Reference} :
      Tells w top out (.released r b ref left)
  | flushed {top : Option (Frame α)} {out : Outcome α} {r : Nat} {b : BundleId} {ref : Reference} :
      Tells w top out (.flushed r b ref)

theorem mem_asks {f : Frame α} {o : Occurrence α} (ho : o ∈ f.asks) : ∃ q, o = .asked q := by
  obtain ⟨q, -, rfl⟩ := List.mem_map.mp ho
  exact ⟨q, rfl⟩

/-- A step tells one occurrence that matters, and asks. -/
theorem Step.tells (hs : Step w top out) {o : Occurrence α} (hmem : o ∈ out.2) (ho : o.matters = true) :
    (∃ q, o = .asked q) ∨ Tells w top out o := by
  have hgist : o ∈ gist out.2 := List.mem_filter.mpr ⟨hmem, ho⟩
  have hasks : ∀ f : Frame α, o ∈ gist f.asks → ∃ q, o = .asked q := fun f hin => mem_asks (List.mem_filter.mp hin).1
  cases hs with
  | idle _ hi =>
    rw [hi.quiet] at hgist
    cases hgist
  | publish _ _ _ _ _ _ _ hos =>
    rw [hos] at hgist
    cases hgist
  | retire _ _ hg _ _ hactive hos =>
    rw [hos] at hgist
    obtain rfl := List.mem_singleton.mp hgist
    exact Or.inr (.retired hg hactive)
  | notified hos =>
    rw [hos] at hgist
    cases hgist
  | drain f _ _ hos =>
    rw [hos] at hgist
    rcases List.mem_cons.mp hgist with rfl | hin
    · exact Or.inr .drained
    · exact Or.inl (hasks f hin)
  | acquire f _ hknown _ _ hos =>
    rw [hos] at hgist
    rcases List.mem_cons.mp hgist with rfl | hin
    · exact Or.inr (.acquired hknown)
    · exact Or.inl (hasks f hin)
  | supplied _ hos =>
    rw [hos] at hgist
    obtain rfl := List.mem_singleton.mp hgist
    exact Or.inr .answered
  | settle _ f _ _ hf hos =>
    rw [hos] at hgist
    rcases List.mem_cons.mp hgist with rfl | hin
    · subst hf
      exact Or.inr .decided
    · exact Or.inl (hasks f hin)
  | decrement _ _ _ _ _ hos =>
    rw [hos] at hgist
    obtain rfl := List.mem_singleton.mp hgist
    exact Or.inr .released
  | flush k _ _ _ _ _ _ hos =>
    rw [hos] at hgist
    rcases List.mem_cons.mp hgist with rfl | hin
    · exact Or.inr .flushed
    · obtain ⟨f, -, hin⟩ := List.mem_flatMap.mp (List.mem_filter.mp hin).1
      exact Or.inl (mem_asks hin)
  | handed hos =>
    rw [hos] at hgist
    exact Or.inl (hasks _ hgist)

/-! ## Every move is a step -/

theorem step_register (w : World α) {r : Nat} {g : Registry α} (hg : w.registries[r]? = some g) (b : BundleId)
    (name : String) (source : Source α) (p : Option Properties) : Step w none (w.register r g b name source p) := by
  unfold register
  split
  · exact .idle (by simp) (idles_finish ..)
  · dsimp only
    split
    · exact .publish (f := some (.announcing r w.registrations.size)) b name source p w.held hg (by simp) rfl
    · unfold finish
      split
      · exact .publish (f := none) b name source p w.held hg (by simp) rfl
      · exact .publish (f := none) b name source p (w.registrations.size :: w.held) hg (by simp) rfl

theorem retire?_eq_some {r : Nat} {g : Registry α} {h : Handle} (hw : w.retire? r g h = some w') :
    ∃ x, w.registration? h = some x ∧ g.isIndexed x.bundle h = true ∧ w.isActive h = true ∧
      w' = (w.setPhase h .unregistering).setRegistry r (g.unlist x.bundle h) := by
  unfold retire? at hw
  cases hx : w.registration? h with
  | none =>
    rw [hx] at hw
    cases hw
  | some x =>
    rw [hx] at hw
    dsimp only at hw
    split at hw
    case isTrue hc =>
      rw [Bool.and_eq_true] at hc
      exact ⟨x, rfl, hc.1, hc.2, (Option.some.inj hw).symm⟩
    case isFalse => cases hw

theorem gist_withdrawing (r : Nat) (h : Handle) (hasSink : Bool) :
    gist (Frame.asks (if hasSink then .withdrawing r h else .draining r h : Frame α)) = [] := by
  cases hasSink <;> rfl

theorem step_withdraw (w : World α) {r : Nat} {g : Registry α} (hg : w.registries[r]? = some g) (h : Handle) :
    Step w none (w.withdraw r g h) := by
  unfold withdraw
  split
  case h_1 w' hw =>
    obtain ⟨x, hx, hindexed, hactive, rfl⟩ := retire?_eq_some hw
    refine .retire (f := none) (by simp) (by simp [Under]) hg hx hindexed hactive ?_
    show gist (_ :: Frame.asks _) = _
    rw [← List.singleton_append, gist_append, gist_withdrawing]
    rfl
  case h_2 => exact .idle (by simp) ((idles_finish ..).after rfl)

theorem step_unregister (w : World α) {r : Nat} {g : Registry α} (hg : w.registries[r]? = some g) (b : BundleId)
    (h : Handle) : Step w none (w.unregister r g b h) := by
  unfold unregister
  split
  · exact .idle (by simp) (idles_finish ..)
  · split
    · exact step_withdraw w hg h
    · exact .idle (by simp) (idles_finish ..)

theorem step_unregisterNext (w : World α) {r : Nat} {g : Registry α} (hg : w.registries[r]? = some g)
    (snapshot rest : List Handle) (n : Nat) :
    Step w (some (.unregistering r snapshot rest n)) (w.unregisterNext r g snapshot n rest) := by
  unfold unregisterNext
  split
  · exact .idle (by simp [Frame.isAside]) (idles_finish ..)
  · rename_i h rest
    split
    case h_1 w' hw =>
      obtain ⟨x, hx, hindexed, hactive, rfl⟩ := retire?_eq_some hw
      refine .retire (f := some (.unregistering r snapshot rest (n + 1))) (by simp [Frame.isLoop])
        (by simp [Under, Frame.isLoop, Frame.refs]) hg hx hindexed hactive ?_
      show gist (_ :: Frame.asks _) = _
      rw [← List.singleton_append, gist_append, gist_withdrawing]
      rfl
    case h_2 =>
      exact .idle (by simp [Frame.isAside]) ((idles_place rfl (by simp [Frame.refs])).after rfl)

theorem step_drain (w : World α) {r : Nat} {g : Registry α} (hg : w.registries[r]? = some g) (h : Handle) :
    Step w (some (.draining r h)) (w.drain r g h) := by
  have hf : ((w.setRegistry r { g with ledger := (g.ledger.drain h).ledger }).setPhase h .invalid).isFactory h =
      w.isFactory h := by
    unfold isFactory registration? setPhase updateRegistration setRegistry
    simp only [Array.getElem?_modify]
    cases w.registrations[h]? <;> simp
  refine .drain _ hg ?_ rfl
  rw [dueTo, ← hf]

theorem get_of_invalid (w : World α) (r : Nat) (g : Registry α) (b : BundleId) {ref : Reference}
    (hx : w.behind? ref = none) : w.get r g b ref = w.finish (.object none) := by
  rw [get, hx]

theorem get_of_valid (w : World α) (r : Nat) (g : Registry α) (b : BundleId) {ref : Reference} {x : Registration α}
    (hx : w.behind? ref = some x) : w.get r g b ref = after [.acquired r b ref]
      ((w.setRegistry r { g with ledger := (g.ledger.acquire b ref).2 }).place
        (fetch r b ref (g.ledger.acquire b ref).1 x.source)) := by
  unfold get
  rw [hx]
  rfl

theorem step_get (w : World α) {r : Nat} {g : Registry α} (hg : w.registries[r]? = some g) (b : BundleId)
    {ref : Reference} (hknown : w.knows ref = true) : Step w none (w.get r g b ref) := by
  cases hx : w.behind? ref with
  | none =>
    rw [get_of_invalid w r g b hx]
    exact .idle (by simp) (idles_finish ..)
  | some x =>
    rw [get_of_valid w r g b hx]
    exact .acquire _ hg hknown hx rfl rfl

theorem step_settle (w : World α) {r : Nat} {g : Registry α} (hg : w.registries[r]? = some g) (h : Handle) (b : BundleId)
    (ref : Reference) (fresh : Bool) (o : Option α) :
    Step w (some (.settling r h b ref fresh o)) (w.settle r g h b ref fresh o) := by
  refine .settle (w.settlement g h b ref fresh o) _ hg rfl rfl ?_
  cases o <;> rfl

/-- The ledger decides what one release does. -/
theorem ungetOne_cases (w : World α) (r : Nat) (g : Registry α) (b : BundleId) (ref : Reference) :
    w.ungetOne r g b ref = (false, none, w, []) ∨
    (∃ left ledger, g.ledger.release b ref.id (!w.isValid ref.target) = (.decremented left, ledger) ∧
      w.ungetOne r g b ref = (true, none, w.setRegistry r { g with ledger := ledger }, [.released r b ref left])) ∨
    (∃ cached ledger, g.ledger.release b ref.id (!w.isValid ref.target) = (.flushed cached, ledger) ∧
      w.ungetOne r g b ref = (true, cached.filter (fun _ => w.isAlive ref.target && w.isFactory ref.target),
        w.setRegistry r { g with ledger := ledger }, [.flushed r b ref])) := by
  unfold ungetOne
  dsimp only
  rcases g.ledger.release b ref.id (!w.isValid ref.target) with ⟨_ | left | cached, ledger⟩
  · exact Or.inl rfl
  · exact Or.inr (Or.inl ⟨left, ledger, rfl, rfl⟩)
  · exact Or.inr (Or.inr ⟨cached, ledger, rfl, rfl⟩)

theorem release_of_factory {h : Handle} (hfactory : w.isFactory h = true) (r : Nat) (due : List (BundleId × α))
    (e : Ending α) : w.release r h due e = w.place (.releasing r h due e) := by
  rw [release, hfactory]
  rfl

theorem factory_of_filter {h : Handle} {cached : Option α} {o : α}
    (hback : cached.filter (fun _ => w.isAlive h && w.isFactory h) = some o) : w.isFactory h = true := by
  simp only [Option.filter_eq_some_iff, Bool.and_eq_true] at hback
  exact hback.2.2

theorem step_unget (w : World α) {r : Nat} {g : Registry α} (hg : w.registries[r]? = some g) (b : BundleId)
    {ref : Reference} (hknown : w.knows ref = true) : Step w none (w.unget r g b ref) := by
  unfold unget
  rcases ungetOne_cases w r g b ref with hone | ⟨left, ledger, hrel, hone⟩ | ⟨cached, ledger, hrel, hone⟩
  · rw [hone]
    exact .idle (by simp) ((idles_finish ..).after rfl)
  · rw [hone]
    dsimp only
    unfold finish
    split
    · exact .decrement (f := none) (by simp) (by simp [Under]) hg (Or.inl hknown) hrel rfl
    · exact .decrement (f := none) (by simp) (by simp [Under]) hg (Or.inl hknown) hrel rfl
  · rw [hone]
    cases hback : cached.filter fun _ => w.isAlive ref.target && w.isFactory ref.target with
    | none =>
      dsimp only
      unfold finish
      split
      · exact .flush (f := none) none (by simp) (by simp [Under]) hg (Or.inl hknown) hrel (by rw [hback]; rfl) rfl
      · exact .flush (f := none) none (by simp) (by simp [Under]) hg (Or.inl hknown) hrel (by rw [hback]; rfl) rfl
    | some o =>
      dsimp only
      rw [release_of_factory]
      · have htop : ∀ k ∈ (none : Option (Frame α)), k.isLoop := by simp
        refine .flush (f := none) (some _) htop (by simp [Under]) hg (Or.inl hknown) hrel ?_ rfl
        rw [hback]
        rfl
      · show w.isFactory ref.target = true
        exact factory_of_filter hback

theorem step_ungetNext (w : World α) {r : Nat} {g : Registry α} (hg : w.registries[r]? = some g) (b : BundleId)
    (rest : List Reference) : Step w (some (.ungetting r b rest)) (w.ungetNext r g b rest) := by
  unfold ungetNext
  cases rest with
  | nil => exact .idle (by simp [Frame.isAside]) (idles_finish ..)
  | cons ref rest =>
    have htop : ∀ k ∈ some (Frame.ungetting r b (ref :: rest) : Frame α), k.isLoop := by simp [Frame.isLoop]
    have hunder : w.Under (some (.ungetting r b (ref :: rest))) (some (.ungetting r b (ref :: rest))) := by
      rintro k ⟨⟩
      exact ⟨rfl, fun q hq => Or.inl ⟨_, rfl, hq⟩⟩
    have hknown : w.knows ref = true ∨ ∃ k ∈ some (Frame.ungetting r b (ref :: rest) : Frame α), ref ∈ k.refs :=
      Or.inr ⟨_, rfl, List.mem_cons_self ..⟩
    dsimp only
    rcases ungetOne_cases w r g b ref with hone | ⟨left, ledger, hrel, hone⟩ | ⟨cached, ledger, hrel, hone⟩
    · rw [hone]
      refine .idle (by simp [Frame.isAside]) ((idles_place rfl fun q hq => ?_).after rfl)
      exact Or.inl ⟨_, rfl, List.mem_cons_of_mem _ hq⟩
    · rw [hone]
      exact .decrement htop hunder hg hknown hrel rfl
    · rw [hone]
      cases hback : cached.filter fun _ => w.isAlive ref.target && w.isFactory ref.target with
      | none => exact .flush none htop hunder hg hknown hrel (by rw [hback]; rfl) rfl
      | some o =>
        dsimp only
        rw [release_of_factory]
        · refine .flush (some _) htop hunder hg hknown hrel ?_ rfl
          rw [hback]
          rfl
        · show w.isFactory ref.target = true
          exact factory_of_filter hback

theorem step_call (w : World α) {r : Nat} {g : Registry α} (hg : w.registries[r]? = some g) {op : Operation α}
    (hop : w.allows op = true) : Step w none (w.call r g op) := by
  unfold call
  cases op with
  | register b name source p => exact step_register w hg b name source p
  | unregister b h => exact step_unregister w hg b h
  | unregisterAll b => exact .idle (by simp) (idles_place rfl (by simp [Frame.refs]))
  | find name filtered => exact .idle (by simp) (idles_find ..)
  | findOne name => exact .idle (by simp) (idles_findOne ..)
  | registered b => exact .idle (by simp) (idles_returnAll ..)
  | hooks => exact .idle (by simp) (idles_returnAll ..)
  | inUse b => exact .idle (by simp) (idles_finish ..)
  | users ref => exact .idle (by simp) (idles_finish ..)
  | usage b ref => exact .idle (by simp) (idles_finish ..)
  | count => exact .idle (by simp) (idles_finish ..)
  | get b ref => exact step_get w hg b hop
  | unget b ref => exact step_unget w hg b hop
  | ungetAll b => exact .idle (by simp) (idles_place rfl fun ref href => Or.inr ⟨r, g, b, hg, href⟩)
  | setProperties h p => exact .idle (by simp) (idles_setProperties ..)
  | modified h old => exact .idle (by simp) (idles_report ..)

/-- The step of a move that the client's call or the innermost operation's question opens. -/
theorem Step.after {os : List (Occurrence α)} (hos : gist os = []) (h : Step w top out) : Step w top (after os out) := by
  have hgist : ∀ os' : List (Occurrence α), gist (os ++ os') = gist os' := fun os' => by
    rw [gist_append, hos, List.nil_append]
  cases h with
  | idle htop h => exact .idle htop (h.after hos)
  | publish b name source p held hg hf hos' => exact .publish b name source p held hg hf ((hgist _).trans hos')
  | retire htop hf hg hx hindexed hactive hos' => exact .retire htop hf hg hx hindexed hactive ((hgist _).trans hos')
  | notified hos' => exact .notified ((hgist _).trans hos')
  | drain f hg hf hos' => exact .drain f hg hf ((hgist _).trans hos')
  | acquire f hg hknown hx hf hos' => exact .acquire f hg hknown hx hf ((hgist _).trans hos')
  | supplied o hos' => exact .supplied o ((hgist _).trans hos')
  | settle e f hg he hf hos' => exact .settle e f hg he hf ((hgist _).trans hos')
  | decrement htop hf hg hknown hrel hos' => exact .decrement htop hf hg hknown hrel ((hgist _).trans hos')
  | flush k htop hf hg hknown hrel hk hos' => exact .flush k htop hf hg hknown hrel hk ((hgist _).trans hos')
  | handed hos' => exact .handed ((hgist _).trans hos')

theorem step_conclude (w : World α) (r : Nat) (h : Handle) (e : Ending α) :
    Step w (some (.releasing r h [] e)) (w.conclude r h e) := by
  refine .idle (by simp [Frame.isAside]) ?_
  unfold conclude
  cases e with
  | withdrawn => exact (idles_finish ..).after rfl
  | got b ref o => exact (idles_finish ..).after rfl
  | ungot => exact idles_finish ..

inductive Advances (w : World α) : Frame α → Outcome α → Prop
  | drains {r : Nat} {g : Registry α} (hg : w.registries[r]? = some g) (h : Handle) :
      Advances w (.draining r h) (w.drain r g h)
  | settles {r : Nat} {g : Registry α} (hg : w.registries[r]? = some g) (h : Handle) (b : BundleId) (ref : Reference)
      (fresh : Bool) (o : Option α) : Advances w (.settling r h b ref fresh o) (w.settle r g h b ref fresh o)
  | concludes (r : Nat) (h : Handle) (e : Ending α) : Advances w (.releasing r h [] e) (w.conclude r h e)
  | ungets {r : Nat} {g : Registry α} (hg : w.registries[r]? = some g) (b : BundleId) (rest : List Reference) :
      Advances w (.ungetting r b rest) (w.ungetNext r g b rest)
  | unregisters {r : Nat} {g : Registry α} (hg : w.registries[r]? = some g) (snapshot rest : List Handle) (n : Nat) :
      Advances w (.unregistering r snapshot rest n) (w.unregisterNext r g snapshot n rest)

theorem advances_of {f : Frame α} (h : w.advance? f = some out) : w.Advances f out := by
  cases f with
  | draining r h' =>
    obtain ⟨g, hg, rfl⟩ := Option.map_eq_some_iff.mp h
    exact .drains hg h'
  | settling r h' b ref fresh o =>
    obtain ⟨g, hg, rfl⟩ := Option.map_eq_some_iff.mp h
    exact .settles hg h' b ref fresh o
  | releasing r h' due e =>
    cases due with
    | nil =>
      obtain rfl := Option.some.inj h
      exact .concludes r h' e
    | cons p due => cases h
  | ungetting r b rest =>
    obtain ⟨g, hg, rfl⟩ := Option.map_eq_some_iff.mp h
    exact .ungets hg b rest
  | unregistering r snapshot rest n =>
    obtain ⟨g, hg, rfl⟩ := Option.map_eq_some_iff.mp h
    exact .unregisters hg snapshot rest n
  | _ => cases h

inductive Resumes (w : World α) : Frame α → Answer α → Outcome α → Prop
  | announced (r : Nat) (h : Handle) : Resumes w (.announcing r h) .done (w.finish (.published h))
  | reported (r : Nat) (h : Handle) (old : Properties) (reply : Reply α) :
      Resumes w (.reporting r h old reply) .done (w.finish reply)
  | told (r : Nat) (h : Handle) : Resumes w (.withdrawing r h) .done (w.place (.draining r h))
  | rejected (r : Nat) (h : Handle) (p : Properties) (rest : List (Handle × Properties)) (found : List Reference) :
      Resumes w (.filtering r h p rest found) (.verdict false) (w.filterNext r found rest)
  | accepted (r : Nat) (h : Handle) (p : Properties) (rest : List (Handle × Properties)) (found : List Reference) :
      Resumes w (.filtering r h p rest found) (.verdict true)
        (after (w.mint r h).2.2 ((w.mint r h).2.1.filterNext r (found ++ (w.mint r h).1.toList) rest))
  | supplied (r : Nat) (h : Handle) (b : BundleId) (ref : Reference) (o : Option α) :
      Resumes w (.resolving r h b ref) (.supplied o) (w.place (.settling r h b ref true o))
  | handed (r : Nat) (h : Handle) (d : BundleId × α) (due : List (BundleId × α)) (e : Ending α) :
      Resumes w (.releasing r h (d :: due) e) .done (w.place (.releasing r h due e))

theorem resumes_of {f : Frame α} {a : Answer α} (h : w.resume? f a = some out) : w.Resumes f a out := by
  unfold resume? at h
  split at h
  · exact Option.some.inj h ▸ .announced ..
  · exact Option.some.inj h ▸ .reported ..
  · exact Option.some.inj h ▸ .told ..
  · exact Option.some.inj h ▸ .rejected ..
  · exact Option.some.inj h ▸ .accepted ..
  · exact Option.some.inj h ▸ .supplied ..
  · exact Option.some.inj h ▸ .handed ..
  · cases h

theorem step_advance? {f : Frame α} (hout : w.advance? f = some out) : Step w (some f) out := by
  cases advances_of hout with
  | drains hg h => exact step_drain w hg h
  | settles hg h b ref fresh o => exact step_settle w hg h b ref fresh o
  | concludes r h e => exact step_conclude w r h e
  | ungets hg b rest => exact step_ungetNext w hg b rest
  | unregisters hg snapshot rest n => exact step_unregisterNext w hg snapshot rest n

theorem step_resume? {f : Frame α} {q : Question α} {a : Answer α} (hq : f.question? = some q)
    (hout : w.resume? f a = some out) : Step w (some f) (World.after [.answered q a] out) := by
  cases resumes_of hout with
  | announced =>
    obtain rfl := Option.some.inj hq
    exact .after rfl (.idle (by simp [Frame.isAside]) (idles_finish ..))
  | reported =>
    obtain rfl := Option.some.inj hq
    exact .after rfl (.idle (by simp [Frame.isAside]) (idles_finish ..))
  | told =>
    obtain rfl := Option.some.inj hq
    exact .notified rfl
  | rejected =>
    obtain rfl := Option.some.inj hq
    exact .after rfl (.idle (by simp [Frame.isAside]) (idles_filterNext ..))
  | accepted r h =>
    obtain rfl := Option.some.inj hq
    refine .after rfl (.idle (by simp [Frame.isAside]) ?_)
    exact .of_alike (alike_mint w r h) (stack_mint w r h) ((idles_filterNext ..).after (gist_mint w r h))
  | supplied r h b ref o =>
    obtain rfl := Option.some.inj hq
    exact .supplied o rfl
  | handed =>
    obtain rfl := Option.some.inj hq
    refine .handed ?_
    rfl

/-! ## What a move is -/

variable {v : World α} {f : Frame α} {m : Move α}

def GoesOn (v : World α) (f : Frame α) (out : Outcome α) : Prop :=
  (∃ q a o, f.question? = some q ∧ v.resume? f a = some o ∧ out = after [.answered q a] o) ∨ v.advance? f = some out

theorem GoesOn.step (hgo : GoesOn v f out) : Step v (some f) out := by
  rcases hgo with ⟨q, a, o, hq, ho, rfl⟩ | hout
  · exact step_resume? hq ho
  · exact step_advance? hout

inductive Moves (w : World α) (out : Outcome α) : Prop
  | holds (hturn : w.isClientsTurn = true) (held : List Handle) (hout : out = ({ w with held := held }, []))
  | calls {r : Nat} {op : Operation α} {g : Registry α} (hturn : w.isClientsTurn = true) (hop : w.allows op = true)
      (hg : w.registries[r]? = some g) (hout : out = after [.called r op] (w.call r g op))
  | goesOn {f : Frame α} {fs : List (Frame α)} (hstack : w.stack = f :: fs) (hgo : GoesOn { w with stack := fs } f out)

theorem calls_of_play {r : Nat} {op : Operation α} (hplay : w.play (.call r op) = some out) :
    w.isClientsTurn = true ∧ w.allows op = true ∧
      ∃ g, w.registries[r]? = some g ∧ out = after [.called r op] (w.call r g op) := by
  dsimp only [play] at hplay
  split at hplay
  case isTrue hc =>
    rw [Bool.and_eq_true] at hc
    obtain ⟨g, hg, rfl⟩ := Option.map_eq_some_iff.mp hplay
    exact ⟨hc.1, hc.2, g, hg, rfl⟩
  case isFalse => cases hplay

/-- An answer is to what the innermost operation asks, which goes on with it. -/
theorem answered_of_play {a : Answer α} (hplay : w.play (.answer a) = some out) :
    ∃ k fs q o, w.stack = k :: fs ∧ k.question? = some q ∧ { w with stack := fs }.resume? k a = some o ∧
      out = after [.answered q a] o := by
  dsimp only [play, answer?] at hplay
  split at hplay
  · cases hplay
  · rename_i k fs hs
    obtain ⟨q, hq, hplay⟩ := Option.bind_eq_some_iff.mp hplay
    obtain ⟨o, ho, hplay⟩ := Option.bind_eq_some_iff.mp hplay
    exact ⟨k, fs, q, o, hs, hq, ho, (Option.some.inj hplay).symm⟩

theorem moves_of_play (hplay : w.play m = some out) : Moves w out := by
  cases m with
  | call r op =>
    obtain ⟨hturn, hop, g, hg, hout⟩ := calls_of_play hplay
    exact .calls hturn hop hg hout
  | answer a =>
    obtain ⟨k, fs, q, o, hs, hq, ho, hout⟩ := answered_of_play hplay
    exact .goesOn hs (Or.inl ⟨q, a, o, hq, ho, hout⟩)
  | tick =>
    dsimp only [play, tick?] at hplay
    split at hplay
    · cases hplay
    · rename_i k fs hs
      exact .goesOn hs (Or.inr hplay)
  | hold t =>
    dsimp only [play] at hplay
    split at hplay
    case isTrue hc => exact .holds (Bool.and_eq_true_iff.mp hc).1 _ (Option.some.inj hplay).symm
    case isFalse => cases hplay
  | drop t =>
    dsimp only [play] at hplay
    split at hplay
    case isTrue hc => exact .holds (Bool.and_eq_true_iff.mp hc).1 _ (Option.some.inj hplay).symm
    case isFalse => cases hplay

theorem eq_onto {s : List (Frame α)} (hstack : w.stack = f :: s) :
    w = World.onto { w with stack := s } (some f) := by
  show w = { w with stack := f :: s }
  rw [← hstack]

/-- Every move is the client's, on the world as it is and in its turn, or takes the innermost
    operation off the stack and works on the rest. -/
theorem play_step (h : w.play m = some out) :
    ∃ v top, w = v.onto top ∧ (top = none → w.isClientsTurn = true) ∧ Step v top out := by
  cases moves_of_play h with
  | holds hturn held hout =>
    subst hout
    exact ⟨w, none, rfl, fun _ => hturn, .idle (by simp) ⟨.of_eq rfl rfl, ⟨none, rfl, by simp⟩, rfl⟩⟩
  | calls hturn hop hg hout =>
    subst hout
    exact ⟨w, none, rfl, fun _ => hturn, (step_call w hg hop).after rfl⟩
  | goesOn hstack hgo => exact ⟨_, some _, eq_onto hstack, fun htop => (by cases htop), hgo.step⟩

end World

end Switchboard
