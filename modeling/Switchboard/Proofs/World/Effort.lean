/-
  Switchboard.Proofs.World.Effort — a number that falls whenever an operation goes on.

  A frame counts the sections that it has left at most, apart from the releases that the ledgers
  allow: those a ledger counts by its weight. What a section adds to one it takes from the other. A
  withdrawal gives back the objects of the entries that it takes out; a loop hands on the object of
  an entry that is gone, and stays with it for the next release (`effort_goesOn`).

  Only calls of the client make the number larger, be it an operation that they place or a use
  that they count.
-/

import Switchboard.Proofs.Registry.Weight
import Switchboard.Proofs.World.Call
import Switchboard.Proofs.World.Use

namespace Switchboard

variable {α : Type}

/-- How many sections it has left at most, its parts included, but for what the ledgers count. -/
def Frame.effort : Frame α → Nat
  | announcing .. | reporting .. => 1
  | draining .. => 2
  | withdrawing .. => 3
  | settling .. => 4
  | resolving .. => 5
  | filtering _ _ _ rest _ => rest.length + 1
  | releasing _ _ due _ => due.length + 1
  | ungetting _ _ rest => rest.length + 1
  | unregistering _ _ rest _ => 4 * rest.length + 1

namespace World

variable {w v : World α} {g k : Registry α} {f : Frame α} {out : Outcome α} {r : Nat} {h : Handle} {b : BundleId}

def load (w : World α) : Nat := (w.registries.toList.map (·.ledger.weight)).sum

def effort (w : World α) : Nat := (w.stack.map Frame.effort).sum + w.load

/-! ## What changes it -/

theorem sum_set {β : Type} {xs : List β} {i : Nat} {x : β} (hx : xs[i]? = some x) (m : β → Nat) (y : β) :
    ((xs.set i y).map m).sum + m x = (xs.map m).sum + m y := by
  induction xs generalizing i with
  | nil => cases hx
  | cons z zs ih =>
    cases i with
    | zero =>
      obtain rfl := Option.some.inj hx
      simp only [List.set_cons_zero, List.map_cons, List.sum_cons]
      omega
    | succ i =>
      have hrest := ih (i := i) hx
      simp only [List.set_cons_succ, List.map_cons, List.sum_cons]
      omega

/-- A registry with another ledger. -/
theorem effort_setRegistry (hg : w.registries[r]? = some g) (k : Registry α) :
    (w.setRegistry r k).effort + g.ledger.weight = w.effort + k.ledger.weight := by
  rw [← Array.getElem?_toList] at hg
  have hsum := sum_set hg (·.ledger.weight) k
  simp only [effort, load, setRegistry, Array.toList_setIfInBounds]
  omega

@[simp] theorem effort_after (os : List (Occurrence α)) (out : Outcome α) : (after os out).1.effort = out.1.effort := rfl

@[simp] theorem effort_setPhase (w : World α) (h : Handle) (p : Phase) : (w.setPhase h p).effort = w.effort := rfl

@[simp] theorem effort_place (w : World α) (f : Frame α) : (w.place f).1.effort = f.effort + w.effort := by
  simp [effort, load, place, Nat.add_assoc]

@[simp] theorem effort_finish (w : World α) (reply : Reply α) : (w.finish reply).1.effort = w.effort := by
  unfold finish
  split <;> rfl

@[simp] theorem effort_mint (w : World α) (r : Nat) (h : Handle) : (w.mint r h).2.1.effort = w.effort := by
  unfold mint
  split
  · rfl
  · rename_i g hg
    have hset := effort_setRegistry hg (g.mint (w.serviceId h) h).2
    exact Nat.add_right_cancel hset

@[simp] theorem effort_filterNext (w : World α) (r : Nat) (found : List Reference) (cs : List (Handle × Properties)) :
    (w.filterNext r found cs).1.effort = cs.length + w.effort := by
  cases cs <;> simp [filterNext, Frame.effort]

/-- Some of the objects are due, or none. -/
theorem effort_release (w : World α) (r : Nat) (h : Handle) (due : List (BundleId × α)) (e : Ending α) :
    (w.release r h due e).1.effort ≤ due.length + 1 + w.effort := by
  rw [release, effort_place, Frame.effort]
  split
  · exact Nat.le_refl _
  · simp

/-! ## It falls -/

theorem effort_resume? {a : Answer α} (ho : v.resume? f a = some out) : out.1.effort < f.effort + v.effort := by
  cases resumes_of ho with
  | accepted r h p rest found =>
    rw [effort_after, effort_filterNext, effort_mint, Frame.effort]
    omega
  | _ => simp [Frame.effort]

/-- A withdrawal gives back no more objects than the entries it takes out. -/
theorem effort_drain (hg : v.registries[r]? = some g) (hl : g.ledger.Sound) (h : Handle) :
    (v.drain r g h).1.effort < 2 + v.effort := by
  have hweight := Ledger.weight_drain hl h
  have hset := effort_setRegistry hg { g with ledger := (g.ledger.drain h).ledger }
  have hrelease := effort_release ((v.setRegistry r { g with ledger := (g.ledger.drain h).ledger }).setPhase h .invalid)
    r h (g.ledger.drain h).objects .withdrawn
  rw [effort_setPhase] at hrelease
  rw [drain, effort_after]
  dsimp only at hset hrelease ⊢
  omega

/-- The final section of a `get` gives back two objects at most, and leaves no more uses than there were. -/
theorem bounds_of_settles {l : Ledger α} {id : Nat} {valid fresh : Bool} {o : Option α} {e : Settlement α} (hl : l.Sound)
    (he : Settles l b id valid fresh o e) : e.due.length ≤ 2 ∧ e.ledger.weight ≤ l.weight := by
  have hdue : (o.filter fun _ => fresh).toList.length ≤ 1 := by cases o.filter fun _ => fresh <;> simp
  cases he with
  | cached => simp
  | missing => simp
  | existing => simp
  | kept hvalid hfresh ho hc hl' hedit =>
    have hweight := hedit.weight hl hl'
    simp only [Option.map_some, Option.getD_some, Usage.weight] at hweight
    exact ⟨by simp, by dsimp only; omega⟩
  | lost => exact ⟨by dsimp only; omega, Nat.le_refl _⟩
  | spent hno hvalid hcount hl' hedit =>
    have hweight := hedit.weight hl hl'
    simp only [Option.map_some, Option.getD_some, Usage.weight] at hweight
    exact ⟨by dsimp only; omega, by dsimp only; omega⟩
  | @dropped u l' hno hc hl' hedit =>
    have hweight := hedit.weight hl hl'
    simp only [Option.map_some, Option.getD_some, Option.map_none, Option.getD_none] at hweight
    have hcached : u.object.toList.length ≤ 1 := by cases u.object <;> simp
    refine ⟨?_, by dsimp only; omega⟩
    rw [List.length_append]
    omega

theorem effort_settle {ref : Reference} {fresh : Bool} {o : Option α} (hg : v.registries[r]? = some g) (hl : g.ledger.Sound) :
    (v.settle r g h b ref fresh o).1.effort < 4 + v.effort := by
  have hsettles : Settles g.ledger b ref.id (v.isValid h) fresh o (v.settlement g h b ref fresh o) := settles_of_eq hl rfl
  obtain ⟨hdue, hweight⟩ := bounds_of_settles hl hsettles
  have hset := effort_setRegistry hg { g with ledger := (v.settlement g h b ref fresh o).ledger }
  have hrelease := effort_release (v.setRegistry r { g with ledger := (v.settlement g h b ref fresh o).ledger }) r h
    ((v.settlement g h b ref fresh o).due.map (b, ·)) (.got b ref (v.settlement g h b ref fresh o).object)
  rw [List.length_map] at hrelease
  rw [settle, effort_after]
  dsimp only at hset hrelease ⊢
  omega

theorem effort_conclude (v : World α) (r : Nat) (h : Handle) (e : Ending α) : (v.conclude r h e).1.effort = v.effort := by
  cases e <;> simp [conclude]

/-- A loop drops a reference, or a release lowers the weight of the ledger by more than what is handed on. -/
theorem effort_ungetNext {rest : List Reference} (hg : v.registries[r]? = some g) (hl : g.ledger.Sound) :
    (v.ungetNext r g b rest).1.effort < rest.length + 1 + v.effort := by
  unfold ungetNext
  cases rest with
  | nil => simp
  | cons ref rest =>
    dsimp only
    rcases ungetOne_cases v r g b ref with hone | ⟨left, ledger, hrel, hone⟩ | ⟨cached, ledger, hrel, hone⟩
    · rw [hone]
      simp [Frame.effort]
    · have hset := effort_setRegistry hg { g with ledger := ledger }
      have hweight := Ledger.weight_decremented hl hrel
      rw [hone]
      simp only [if_true, effort_after, effort_place, Frame.effort, List.length_cons]
      dsimp only at hset
      omega
    · have hset := effort_setRegistry hg { g with ledger := ledger }
      have hweight := Ledger.weight_flushed hl hrel
      rw [hone]
      dsimp only at hset
      cases cached.filter fun _ => v.isAlive ref.target && v.isFactory ref.target with
      | none =>
        simp only [if_true, effort_after, effort_place, Frame.effort, List.length_cons]
        omega
      | some o =>
        have hrelease := effort_release (((v.setRegistry r { g with ledger := ledger }).place (.ungetting r b (ref :: rest))).1)
          r ref.target [(b, o)] .ungot
        rw [effort_place, Frame.effort] at hrelease
        simp only [List.length_cons, List.length_nil] at hrelease
        rw [effort_after, List.length_cons]
        omega

/-- A loop has one registration less to look at, and may start its withdrawal. -/
theorem effort_unregisterNext (hg : v.registries[r]? = some g) (snapshot rest : List Handle) (n : Nat) :
    (v.unregisterNext r g snapshot n rest).1.effort < 4 * rest.length + 1 + v.effort := by
  unfold unregisterNext
  cases rest with
  | nil => simp
  | cons h rest =>
    dsimp only
    split
    · rename_i w' hw
      obtain ⟨x, -, -, -, rfl⟩ := retire?_eq_some hw
      have hset := effort_setRegistry (w := v.setPhase h .unregistering) hg (g.unlist x.bundle h)
      rw [effort_setPhase] at hset
      have hleaving : Frame.effort (if g.hasSink then .withdrawing r h else .draining r h : Frame α) ≤ 3 := by
        split <;> simp [Frame.effort]
      have hledger : (g.unlist x.bundle h).ledger = g.ledger := rfl
      rw [hledger] at hset
      simp only [withdrawal, effort_after, effort_place, List.length_cons]
      rw [Frame.effort]
      omega
    · simp only [effort_after, effort_place, Frame.effort, List.length_cons]
      omega

/-- Whenever an operation goes on, the number falls. -/
theorem effort_goesOn (hsound : ∀ (r : Nat) (g : Registry α), v.registries[r]? = some g → g.ledger.Sound)
    (hgo : GoesOn v f out) : out.1.effort < f.effort + v.effort := by
  rcases hgo with ⟨q, a, o, -, ho, rfl⟩ | hout
  · rw [effort_after]
    exact effort_resume? ho
  · cases advances_of hout with
    | drains hg h => exact effort_drain hg (hsound _ _ hg) h
    | settles hg => exact effort_settle hg (hsound _ _ hg)
    | concludes r h e =>
      rw [effort_conclude, Frame.effort]
      omega
    | ungets hg => exact effort_ungetNext hg (hsound _ _ hg)
    | unregisters hg snapshot rest n => exact effort_unregisterNext hg snapshot rest n

end World

end Switchboard
