/-
  Switchboard.World.Basic — several registries, their registrations and the operations in flight.

  Since the client may call an operation from a call back of another, a world keeps the
  operations in flight on a stack, innermost first. Control is with the client when nothing is
  in flight or the innermost frame awaits an answer (`World.isClientsTurn`).

  Registrations are held by handle in one store, for a reference minted by one registry may be
  passed to another. A registration is alive while something holds on to it: an index, the
  client, or an operation in flight (`World.isAlive`). References do not.
-/

import Switchboard.World.Operation

namespace Switchboard

structure World (α : Type) where
  registrations : Array (Registration α)
  registries : Array (Registry α)
  /-- The registrations the client holds on to, once for each time it does. -/
  held : List Handle
  /-- The operations in flight, innermost first. -/
  stack : List (Frame α)

namespace World

variable {α : Type}

def start (setups : List (Config × Bool)) : World α where
  registrations := #[]
  registries := (setups.map fun s => Registry.ofConfig s.1 s.2).toArray
  held := []
  stack := []

/-! ## Registrations -/

def registration? (w : World α) (h : Handle) : Option (Registration α) := w.registrations[h]?

def phase? (w : World α) (h : Handle) : Option Phase := (w.registration? h).map (·.phase)

def isActive (w : World α) (h : Handle) : Bool := w.phase? h == some .active

/-- Not withdrawn for good. -/
def isValid (w : World α) (h : Handle) : Bool :=
  match w.phase? h with
  | some .active | some .unregistering => true
  | _ => false

def isFactory (w : World α) (h : Handle) : Bool :=
  (w.registration? h).any (·.source.isFactory)

def isIndexed (w : World α) (g : Registry α) (h : Handle) : Bool :=
  (w.registration? h).any fun x => g.isIndexed x.bundle h

/-- Does anything hold on to the registration? -/
def isAlive (w : World α) (h : Handle) : Bool :=
  w.held.contains h || w.stack.any (·.pins.contains h) ||
    w.registries.any fun g => w.isIndexed g h || g.hooks.contains h

def updateRegistration (w : World α) (h : Handle) (f : Registration α → Registration α) : World α :=
  { w with registrations := w.registrations.modify h f }

def setPhase (w : World α) (h : Handle) (p : Phase) : World α :=
  w.updateRegistration h fun x => { x with phase := p }

/-! ## Registries -/

def setRegistry (w : World α) (r : Nat) (g : Registry α) : World α :=
  { w with registries := w.registries.setIfInBounds r g }

def active (w : World α) (g : Registry α) : List Handle := g.index.members.filter w.isActive

def registrationCount (w : World α) (g : Registry α) : Nat := (w.active g).length

def hasName (w : World α) (name : String) (h : Handle) : Bool :=
  (w.registration? h).any (·.name == name)

def serviceId (w : World α) (h : Handle) : ServiceId := ((w.registration? h).map (·.id)).getD 0

/-- Of these registrations, the first of those with the least id. -/
def leastId (w : World α) : List Handle → Option Handle
  | [] => none
  | h :: hs =>
    match w.leastId hs with
    | some m => if w.serviceId m < w.serviceId h then some m else some h
    | none => some h

/-! ## References -/

def knows (w : World α) (ref : Reference) : Bool := w.registries.any (·.knows ref)

/-- The registration behind a reference while it is valid. -/
def behind? (w : World α) (ref : Reference) : Option (Registration α) :=
  if w.isValid ref.target then w.registration? ref.target else none

/-! ## Control -/

/-- The call back that awaits an answer. -/
def pending? (w : World α) : Option (Question α) := w.stack.head?.bind Frame.question?

def isClientsTurn (w : World α) : Bool := w.stack.isEmpty || w.pending?.isSome

end World

end Switchboard
