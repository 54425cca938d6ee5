/-
  Switchboard.World.Publishing — services come and go.

  Publishing takes a registration into the indexes and then tells the sink. A withdrawal has
  two phases. First the registration leaves the indexes and is unregistering (`retire?`), and
  the sink is told; in that phase it is still valid and its uses stand. Then, in one section,
  all its uses are taken back and it turns invalid (`drain`), and after that the objects go
  back to the factory.
-/

import Switchboard.World.Outcome

namespace Switchboard

namespace World

variable {α : Type}

/-! ## Publishing -/

def stamped (p : Option Properties) (name : String) (id : ServiceId) : Properties :=
  (p.getD .empty).stamp name id

def register (w : World α) (r : Nat) (g : Registry α) (b : BundleId) (name : String) (source : Source α)
    (p : Option Properties) : Outcome α :=
  if Text.isBlank name then w.finish (.refused .emptyName)
  else
    let h := w.registrations.size
    let x := ⟨g.nextService, name, b, r, source, stamped p name g.nextService, .active⟩
    let w := { w with registrations := w.registrations.push x }.setRegistry r (g.enlist b name h)
    after [.published r h] <|
      if g.hasSink then w.place (.announcing r h) else w.finish (.published h)

def report (w : World α) (r : Nat) (g : Registry α) (h : Handle) (old : Properties) (reply : Reply α) :
    Outcome α :=
  if g.hasSink then w.place (.reporting r h old reply) else w.finish reply

def setProperties (w : World α) (r : Nat) (g : Registry α) (h : Handle) (p : Properties) : Outcome α :=
  match w.registration? h with
  | none => w.finish (.flag false)
  | some x =>
    if g.isIndexed x.bundle h then
      let w := w.updateRegistration h fun x => { x with properties := p.stamp x.name x.id }
      after [.replaced r h x.properties] (w.report r g h x.properties (.flag true))
    else w.finish (.flag false)

/-! ## Withdrawal -/

/-- Takes an active registration out of the indexes, so that its withdrawal has started; none
    if it is not active at this registry. -/
def retire? (w : World α) (r : Nat) (g : Registry α) (h : Handle) : Option (World α) :=
  match w.registration? h with
  | none => none
  | some x =>
    if g.isIndexed x.bundle h && w.isActive h then
      some ((w.setPhase h .unregistering).setRegistry r (g.unlist x.bundle h))
    else none

def withdrawal (w : World α) (r : Nat) (g : Registry α) (h : Handle) : Outcome α :=
  after [.retired r h] (w.place (if g.hasSink then .withdrawing r h else .draining r h))

def withdraw (w : World α) (r : Nat) (g : Registry α) (h : Handle) : Outcome α :=
  match w.retire? r g h with
  | some w => w.withdrawal r g h
  | none => after [.declined r h] (w.finish (.flag false))

def unregister (w : World α) (r : Nat) (g : Registry α) (b : BundleId) (h : Handle) : Outcome α :=
  match w.registration? h with
  | none => w.finish (.flag false)
  | some x =>
    if x.bundle == b then w.withdraw r g h
    else w.finish (.refused (.notOwner x.id x.bundle b))

/-- The next of the registrations that a bundle is to lose. -/
def unregisterNext (w : World α) (r : Nat) (g : Registry α) (snapshot : List Handle) (n : Nat) :
    List Handle → Outcome α
  | [] => w.finish (.count n)
  | h :: rest =>
    match w.retire? r g h with
    | some w =>
      let (w, os) := w.place (.unregistering r snapshot rest (n + 1))
      after os (w.withdrawal r g h)
    | none => after [.declined r h] (w.place (.unregistering r snapshot rest n))

/-- Takes back all usage of a registration, which is invalid from now on, and lets the factory
    have the objects. -/
def drain (w : World α) (r : Nat) (g : Registry α) (h : Handle) : Outcome α :=
  let d := g.ledger.drain h
  let w := (w.setRegistry r { g with ledger := d.ledger }).setPhase h .invalid
  after [.drained r h d.uses] (w.release r h d.objects .withdrawn)

end World

end Switchboard
