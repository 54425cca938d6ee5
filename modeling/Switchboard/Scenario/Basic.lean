/-
  Switchboard.Scenario.Basic — clients described as data.

  A scenario sets up some registries and walks through steps. It scripts its own call backs:
  handlers run steps when a sink is told of an event, factories when an object is wanted or
  comes back, filters while they are asked. Steps name what earlier steps got, and answer with
  a `Result`; what happens meanwhile is written to a log of `Entry`s.
-/

import Switchboard.World.Run
import Switchboard.World.Diagnostic

namespace Switchboard.Scenario

/-- What services are made of. A tagged object has a serial number, so that it can be told from
    others of its tag. -/
inductive Item where
  | text (s : String)
  | number (n : Int)
  | tagged (tag : String) (serial : Nat)
  deriving DecidableEq

inductive ItemSpec where
  | text (s : String)
  | number (n : Int)
  | tagged (tag : String)

inductive BundleArg where
  | id (b : BundleId)
  | consumer

inductive HandleArg where
  | named (name : String)
  | current

mutual

/-- Something to do, at the registry of the call back if none is given. -/
inductive Step where
  | mk (registry : Option Nat) (act : Act)

inductive Act where
  | register (b : BundleArg) (name : String) (item : ItemSpec) (properties : Option Properties)
      (binding : Option String)
  | registerFactory (b : BundleArg) (name : String) (script : Script) (properties : Option Properties)
      (binding : Option String)
  | unregister (b : BundleArg) (h : HandleArg)
  | unregisterAll (b : BundleArg)
  /-- The filter may run steps of its own `uses` times. -/
  | find (name : Option String) (filter : Option Filter) (uses : Nat) (binding : Option String)
  | findOne (name : String) (binding : Option String)
  | registered (b : BundleArg) (binding : Option String)
  | hooks (binding : Option String)
  | inUse (b : BundleArg) (binding : Option String)
  | users (ref : String)
  | usage (b : BundleArg) (ref : String)
  | count
  | get (b : BundleArg) (ref : String)
  | unget (b : BundleArg) (ref : String)
  | drain (b : BundleArg) (ref : String)
  | ungetAll (b : BundleArg)
  | setProperties (h : HandleArg) (properties : Properties)
  | modified (h : HandleArg) (old : Properties)
  | registrationInfo (h : HandleArg)
  | registrationProperty (h : HandleArg) (key : String)
  | referenceInfo (ref : String)
  | referenceProperty (ref : String) (key : String)
  | sameReference (a b : String)
  | sameRegistration (a b : HandleArg)
  | distinct (names : List String)
  | keep (h : HandleArg) (name : String)
  | drop (name : String)
  | renderRegistration (h : HandleArg)
  | renderReference (ref : String)
  | renderRegistry
  | display (b : BundleArg) (h : HandleArg)
  | config
  | dump
  | unknown

/-- How a factory behaves. The `n`-th object it makes is the `n`-th of its list, or the last;
    without a list it makes one tagged with its consumer. -/
inductive Script where
  | silent (produce : List (Option ItemSpec))
  | full (produce : Option (List (Option ItemSpec))) (onGet onUnget : List (List Step))

inductive Filter where
  | equals (key value : String)
  | has (key : String)
  | not (f : Filter)
  | all (fs : List Filter)
  | any (fs : List Filter)
  | const (b : Bool)
  /-- Is this property the one that the service found by name has? -/
  | lookup (key service : String)
  | log (f : Filter)
  | perform (steps : List Step) (f : Filter)

end

instance : Inhabited Step := ⟨.mk none .unknown⟩

instance : Inhabited Script := ⟨.silent []⟩

instance : Inhabited Filter := ⟨.const true⟩

/-- Steps to run when a sink is told of an event of this kind, as often as it has uses. -/
structure Handler where
  kind : EventKind
  name : Option String
  uses : Nat
  steps : List Step

structure Setup where
  config : Config
  hasSink : Bool
  handlers : List Handler

/-! ## Results -/

structure RegistrationInfo where
  id : ServiceId
  name : String
  bundle : BundleId
  isFactory : Bool
  phase : Phase
  isValid : Bool
  properties : Properties

/-- What a reference shows; of a registration that is not valid, its id only. -/
structure ReferenceInfo where
  service : ServiceId
  isValid : Bool
  name : Option String
  bundle : Option BundleId
  properties : Option Properties

structure RegistryInfo where
  count : Nat
  /-- For each bound reference in use, the bundles with their counts. -/
  usage : List (String × List (BundleId × Nat))
  inUse : List (BundleId × List String)

structure Dump where
  registrations : List (String × RegistrationInfo)
  references : List (String × ReferenceInfo)
  registries : List RegistryInfo

inductive Result where
  | null
  | flag (b : Bool)
  | number (n : Nat)
  | numbers (ns : List Nat)
  | reference (service id : Nat)
  | text (s : String)
  | texts (ss : List String)
  | item (o : Item)
  | registration (x : RegistrationInfo)
  | referenceInfo (x : ReferenceInfo)
  | config (c : Config)
  | dump (d : Dump)
  | refused (e : RegistryError)
  /-- A name is not bound; nothing was done. -/
  | noHandle
  | unknownStep

inductive Entry where
  | event (kind : EventKind) (registry : Nat) (service : ServiceId) (phase : Phase) (properties : Properties)
      (old : Option Properties) (count : Nat)
  | factoryGet (service : ServiceId) (b : BundleId) (phase : Phase)
  | factoryUnget (service : ServiceId) (b : BundleId) (o : Item) (phase : Phase)
  | closureGet (service : ServiceId)
  | filter (p : Properties)
  | step (r : Result)
  | note (n : Note)

end Switchboard.Scenario
