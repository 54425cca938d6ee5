/-
  Switchboard.World.Outcome — how operations go on, end and hand out references.

  Every step of an operation gives the new world and what happened on the way (`Outcome`). An
  operation placed on the stack asks its question at once (`place`). An operation that ends
  (`finish`) returns to the client, unless it was part of another one, which then goes on.
-/

import Switchboard.World.Basic

namespace Switchboard

/-- A world and what happened on the way to it. -/
abbrev Outcome (α : Type) : Type := World α × List (Occurrence α)

namespace World

variable {α : Type}

/-! ## Frames -/

def place (w : World α) (f : Frame α) : Outcome α :=
  ({ w with stack := f :: w.stack }, f.question?.toList.map .asked)

/-- An operation that was taken off the stack returns: to the one it was part of, which needs
    no reply, or else to the client. A client that gets a registration holds on to it. -/
def finish (w : World α) (reply : Reply α) : Outcome α :=
  if w.stack.head?.any Frame.isLoop then (w, [])
  else
    let held := match reply with
      | .published h => h :: w.held
      | _ => w.held
    ({ w with held := held }, [.returned reply])

def after (os : List (Occurrence α)) (out : Outcome α) : Outcome α := (out.1, os ++ out.2)

def release (w : World α) (r : Nat) (h : Handle) (due : List (BundleId × α)) (e : Ending α) : Outcome α :=
  w.place (.releasing r h (if w.isFactory h then due else []) e)

/-! ## Minting -/

def mint (w : World α) (r : Nat) (h : Handle) : Option Reference × Outcome α :=
  match w.registries[r]? with
  | none => (none, w, [])
  | some g =>
    let (ref, g) := g.mint (w.serviceId h) h
    (some ref, w.setRegistry r g, [.minted r ref])

def mintAll (w : World α) (r : Nat) : List Handle → List Reference × Outcome α
  | [] => ([], w, [])
  | h :: hs =>
    let (ref, w, os) := w.mint r h
    let (refs, w, os') := w.mintAll r hs
    (ref.toList ++ refs, w, os ++ os')

def returnAll (w : World α) (r : Nat) (hs : List Handle) : Outcome α :=
  let (refs, w, os) := w.mintAll r hs
  after os (w.finish (.references refs))

end World

end Switchboard
