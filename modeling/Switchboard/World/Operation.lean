/-
  Switchboard.World.Operation — operations, their call backs and their frames.

  Operations call back: a sink is told of an event, a filter is asked about properties, a
  factory makes an object or takes one back. While it handles a call back (a `Question`), the
  client may start further operations, on any registry.

  A `Frame` is an operation between two of its critical sections: either it awaits an answer
  (`Frame.question?`), or it is ready for its next section. An operation that consists of
  others (`Frame.isLoop`) never awaits an answer itself.

  What happens is told by `Occurrence`s, in the order it happens.
-/

import Switchboard.Registry.State

namespace Switchboard

inductive Operation (α : Type) where
  | register (b : BundleId) (name : String) (source : Source α) (properties : Option Properties)
  | unregister (b : BundleId) (h : Handle)
  | unregisterAll (b : BundleId)
  /-- References to the active registrations of that name, if one is given; those that the
      client's filter picks, if it is to be asked. -/
  | find (name : Option String) (filtered : Bool)
  /-- A reference to the active registration of that name with the least id. -/
  | findOne (name : String)
  | registered (b : BundleId)
  | hooks
  | inUse (b : BundleId)
  | users (r : Reference)
  | usage (b : BundleId) (r : Reference)
  | count
  | get (b : BundleId) (r : Reference)
  | unget (b : BundleId) (r : Reference)
  | ungetAll (b : BundleId)
  | setProperties (h : Handle) (properties : Properties)
  | modified (h : Handle) (old : Properties)

inductive Reply (α : Type) where
  | published (h : Handle)
  | refused (e : RegistryError)
  | flag (b : Bool)
  | count (n : Nat)
  | references (rs : List Reference)
  | reference (r : Option Reference)
  | bundles (bs : List BundleId)
  | usage (n : Option Nat)
  | object (o : Option α)
  | done

inductive Question (α : Type) where
  | event (r : Nat) (kind : EventKind) (h : Handle) (old : Option Properties)
  | filter (r : Nat) (properties : Properties)
  /-- The factory of a registration is to make an object for a bundle. -/
  | supply (h : Handle) (b : BundleId)
  | takeBack (h : Handle) (b : BundleId) (o : α)

inductive Answer (α : Type) where
  | done
  | verdict (picked : Bool)
  | supplied (o : Option α)

/-- What an operation still says when the objects it gave back are back. -/
inductive Ending (α : Type) where
  | withdrawn
  | got (b : BundleId) (r : Reference) (o : Option α)
  | ungot

/-- An operation in flight, at registry `r`. -/
inductive Frame (α : Type) where
  | announcing (r : Nat) (h : Handle)
  | reporting (r : Nat) (h : Handle) (old : Properties) (reply : Reply α)
  | withdrawing (r : Nat) (h : Handle)
  /-- A withdrawal: usage is drained next. -/
  | draining (r : Nat) (h : Handle)
  /-- `find`: the filter is asked of the candidate `h` with the properties of the snapshot. -/
  | filtering (r : Nat) (h : Handle) (properties : Properties) (rest : List (Handle × Properties))
      (found : List Reference)
  | resolving (r : Nat) (h : Handle) (b : BundleId) (ref : Reference)
  /-- `get`: the object is at hand, just resolved if `fresh`; the final section is next. -/
  | settling (r : Nat) (h : Handle) (b : BundleId) (ref : Reference) (fresh : Bool) (o : Option α)
  | releasing (r : Nat) (h : Handle) (due : List (BundleId × α)) (ending : Ending α)
  | ungetting (r : Nat) (b : BundleId) (rest : List Reference)
  /-- `unregisterAll`: of the snapshot, `rest` is still to be withdrawn, and `count` were. -/
  | unregistering (r : Nat) (snapshot rest : List Handle) (count : Nat)

namespace Frame

variable {α : Type}

/-- The call back that the operation awaits; none if it is ready to go on. -/
def question? : Frame α → Option (Question α)
  | announcing r h => some (.event r .registered h none)
  | reporting r h old _ => some (.event r .modified h (some old))
  | withdrawing r h => some (.event r .unregistering h none)
  | filtering r _ p _ _ => some (.filter r p)
  | resolving _ h b _ => some (.supply h b)
  | releasing _ h ((b, o) :: _) _ => some (.takeBack h b o)
  | draining .. | settling .. | releasing _ _ [] _ | ungetting .. | unregistering .. => none

/-- Does the operation consist of others, which run as frames above it? -/
def isLoop : Frame α → Bool
  | ungetting .. | unregistering .. => true
  | _ => false

def pins : Frame α → List Handle
  | announcing _ h | reporting _ h _ _ | withdrawing _ h | draining _ h => [h]
  | filtering _ h _ rest _ => h :: rest.map (·.1)
  | resolving _ h _ _ | settling _ h _ _ _ _ | releasing _ h _ _ => [h]
  | ungetting .. => []
  | unregistering _ snapshot _ _ => snapshot

end Frame

inductive Occurrence (α : Type) where
  | called (r : Nat) (op : Operation α)
  | returned (reply : Reply α)
  | asked (q : Question α)
  | answered (q : Question α) (a : Answer α)
  | minted (r : Nat) (ref : Reference)
  | published (r : Nat) (h : Handle)
  | replaced (r : Nat) (h : Handle) (old : Properties)
  /-- A withdrawal did not start: the registration is not active here. -/
  | declined (r : Nat) (h : Handle)
  /-- A withdrawal started: the registration left the index. -/
  | retired (r : Nat) (h : Handle)
  /-- A withdrawal took back this many uses, and the registration is invalid. -/
  | drained (r : Nat) (h : Handle) (reclaimed : Nat)
  | withdrawn (r : Nat) (h : Handle)
  | acquired (r : Nat) (b : BundleId) (ref : Reference)
  | unresolved (r : Nat) (b : BundleId) (h : Handle)
  /-- A `get` passed its final section with this outcome. -/
  | decided (r : Nat) (b : BundleId) (ref : Reference) (o : Option α)
  | got (r : Nat) (b : BundleId) (ref : Reference) (o : Option α)
  /-- An `unget` gave back a use, and `left` remain. -/
  | released (r : Nat) (b : BundleId) (ref : Reference) (left : Nat)
  /-- An `unget` gave back the last use. -/
  | flushed (r : Nat) (b : BundleId) (ref : Reference)

end Switchboard
