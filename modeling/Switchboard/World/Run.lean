/-
  Switchboard.World.Run — how a world moves.

  The client calls an operation (`call`) or answers the call back that awaits it (`answer?`).
  In between, the innermost operation goes on by itself (`tick?`), one critical section at a
  time, until it awaits an answer or returns. `play` takes a move if it is legal, `run` a list
  of them; what a client can bring about, in any nesting of calls, is what some list of moves
  brings about.
-/

import Switchboard.World.Lookup
import Switchboard.World.Publishing
import Switchboard.World.Use

namespace Switchboard

inductive Move (α : Type) where
  | call (r : Nat) (op : Operation α)
  | answer (a : Answer α)
  | tick
  | hold (h : Handle)
  | drop (h : Handle)

namespace World

variable {α : Type}

def call (w : World α) (r : Nat) (g : Registry α) : Operation α → Outcome α
  | .register b name source p => w.register r g b name source p
  | .unregister b h => w.unregister r g b h
  | .unregisterAll b => w.place (.unregistering r (g.owned b) (g.owned b) 0)
  | .find name filtered => w.find r g name filtered
  | .findOne name => w.findOne r g name
  | .registered b => w.returnAll r ((g.owned b).filter w.isValid)
  | .hooks => w.returnAll r g.hooks
  | .inUse b => w.finish (.references (g.ledger.references b))
  | .users ref => w.finish (.bundles (g.ledger.bundles ref.id))
  | .usage b ref => w.finish (.usage (g.ledger.count? b ref.id))
  | .count => w.finish (.count (w.registrationCount g))
  | .get b ref => w.get r g b ref
  | .unget b ref => w.unget r g b ref
  | .ungetAll b => w.place (.ungetting r b (g.ledger.references b))
  | .setProperties h p => w.setProperties r g h p
  | .modified h old => w.report r g h old .done

def conclude (w : World α) (r : Nat) (h : Handle) : Ending α → Outcome α
  | .withdrawn => after [.withdrawn r h] (w.finish (.flag true))
  | .got b ref o => after [.got r b ref o] (w.finish (.object o))
  | .ungot => w.finish (.flag true)

/-- The innermost operation, taken off the stack, goes on with an answer; none if the answer
    does not fit. -/
def resume? (w : World α) : Frame α → Answer α → Option (Outcome α)
  | .announcing _ h, .done => some (w.finish (.published h))
  | .reporting _ _ _ reply, .done => some (w.finish reply)
  | .withdrawing r h, .done => some (w.place (.draining r h))
  | .filtering r _ _ rest found, .verdict false => some (w.filterNext r found rest)
  | .filtering r h _ rest found, .verdict true =>
    let (ref, w, os) := w.mint r h
    some (after os (w.filterNext r (found ++ ref.toList) rest))
  | .resolving r h b ref, .supplied o => some (w.place (.settling r h b ref true o))
  | .releasing r h (_ :: due) e, .done => some (w.place (.releasing r h due e))
  | _, _ => none

/-- The innermost operation, taken off the stack, goes on by itself; none if it awaits an
    answer. -/
def advance? (w : World α) : Frame α → Option (Outcome α)
  | .draining r h => (w.registries[r]?).map fun g => w.drain r g h
  | .settling r h b ref fresh o => (w.registries[r]?).map fun g => w.settle r g h b ref fresh o
  | .releasing r h [] e => some (w.conclude r h e)
  | .ungetting r b rest => (w.registries[r]?).map fun g => w.ungetNext r g b rest
  | .unregistering r snapshot rest n =>
    (w.registries[r]?).map fun g => w.unregisterNext r g snapshot n rest
  | _ => none

def answer? (w : World α) (a : Answer α) : Option (Outcome α) :=
  match w.stack with
  | [] => none
  | f :: fs => do
    let q ← f.question?
    let out ← { w with stack := fs }.resume? f a
    some (after [.answered q a] out)

def tick? (w : World α) : Option (Outcome α) :=
  match w.stack with
  | [] => none
  | f :: fs => { w with stack := fs }.advance? f

/-- A client names only what it was given: references that were handed out, and registrations
    that something holds on to. -/
def allows (w : World α) : Operation α → Bool
  | .unregister _ h | .setProperties h _ | .modified h _ => w.isAlive h
  | .users ref | .usage _ ref | .get _ ref | .unget _ ref => w.knows ref
  | _ => true

def play (w : World α) : Move α → Option (Outcome α)
  | .call r op =>
    if w.isClientsTurn && w.allows op then
      (w.registries[r]?).map fun g => after [.called r op] (w.call r g op)
    else none
  | .answer a => w.answer? a
  | .tick => w.tick?
  | .hold h =>
    if w.isClientsTurn && w.isAlive h then some ({ w with held := h :: w.held }, []) else none
  | .drop h =>
    if w.isClientsTurn && w.held.contains h then some ({ w with held := w.held.erase h }, []) else none

def run (w : World α) : List (Move α) → Option (Outcome α)
  | [] => some (w, [])
  | m :: ms => do
    let (w, os) ← w.play m
    let (w, os') ← w.run ms
    some (w, os ++ os')

end World

end Switchboard
