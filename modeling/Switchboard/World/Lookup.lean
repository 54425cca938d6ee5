/-
  Switchboard.World.Lookup — finding services.

  A lookup takes a snapshot of the active registrations and their properties (`candidates`).
  A filter is asked about the snapshot, one candidate after the other, and a reference is
  minted for each that it picks; what call backs do in between changes neither the candidates
  nor the properties they are tested on.
-/

import Switchboard.World.Outcome

namespace Switchboard

namespace World

variable {α : Type}

/-- What a lookup tests: the active registrations of a name, and their properties now. -/
def candidates (w : World α) (g : Registry α) (name : Option String) : List (Handle × Properties) :=
  ((w.active g).filter fun h => name.all (w.hasName · h)).filterMap fun h =>
    (w.registration? h).map fun x => (h, x.properties)

def filterNext (w : World α) (r : Nat) (found : List Reference) : List (Handle × Properties) → Outcome α
  | [] => w.finish (.references found)
  | (h, p) :: rest => w.place (.filtering r h p rest found)

def find (w : World α) (r : Nat) (g : Registry α) (name : Option String) (filtered : Bool) : Outcome α :=
  let cs := w.candidates g name
  if filtered then w.filterNext r [] cs else w.returnAll r (cs.map (·.1))

def findOne (w : World α) (r : Nat) (g : Registry α) (name : String) : Outcome α :=
  match w.leastId ((w.active g).filter (w.hasName name)) with
  | none => w.finish (.reference none)
  | some h =>
    let (ref, w, os) := w.mint r h
    after os (w.finish (.reference ref))

end World

end Switchboard
