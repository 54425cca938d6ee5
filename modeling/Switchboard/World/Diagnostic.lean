/-
  Switchboard.World.Diagnostic — what is written to the log.

  Some occurrences are reported as a note: a level, a message and named fields. All fields of a
  note are texts.
-/

import Switchboard.World.Basic

namespace Switchboard

inductive Level where
  | trace
  | debug
  | warn
  deriving DecidableEq

structure Note where
  level : Level
  message : String
  fields : List (String × String)

def Config.loadedNote (path : String) : Note := ⟨.debug, "loaded registry config", [("path", path)]⟩

namespace Occurrence

variable {α : Type}

/-- The note on an occurrence, if there is one. The world is any after the registration it is
    about was made: what a note shows of a registration never changes. -/
def note? (w : World α) : Occurrence α → Option Note
  | published _ h => do
    let x ← w.registration? h
    some ⟨.debug, "service registered",
      [("service", toString x.id), ("name", x.name), ("bundle", x.bundle.render),
       ("factory", toString x.source.isFactory)]⟩
  | declined _ h =>
    some ⟨.trace, "service not registered here", [("service", toString (w.serviceId h))]⟩
  | drained _ h reclaimed =>
    if reclaimed = 0 then none
    else some ⟨.warn, "reclaimed usage not released before unregistration",
      [("service", toString (w.serviceId h)), ("reclaimed", toString reclaimed)]⟩
  | withdrawn _ h => do
    let x ← w.registration? h
    some ⟨.debug, "service unregistered", [("service", toString x.id), ("bundle", x.bundle.render)]⟩
  | unresolved _ b h =>
    some ⟨.warn, "service factory produced no object",
      [("bundle", b.render), ("service", toString (w.serviceId h))]⟩
  | got _ b ref o =>
    some ⟨.trace, "get service",
      [("bundle", b.render), ("service", toString ref.service), ("reference", toString ref.id),
       ("bound", toString o.isSome)]⟩
  | released _ b ref left =>
    some ⟨.trace, "unget service",
      [("bundle", b.render), ("service", toString ref.service), ("count", toString left)]⟩
  | flushed _ b ref =>
    some ⟨.trace, "usage flushed", [("bundle", b.render), ("service", toString ref.service)]⟩
  | replaced _ h _ =>
    some ⟨.debug, "service properties replaced", [("service", toString (w.serviceId h))]⟩
  | _ => none

end Occurrence

/-! ## Text of records -/

def Phase.render : Phase → String
  | active => "Active"
  | unregistering => "Unregistering"
  | invalid => "Invalid"

def EventKind.render : EventKind → String
  | registered => "Registered"
  | modified => "Modified"
  | unregistering => "Unregistering"

namespace World

variable {α : Type}

def renderRegistration (x : Registration α) : String :=
  "ServiceRegistration \x7b id: ServiceId(" ++ toString x.id ++ "), name: " ++ Text.quoted x.name ++
    ", bundle: BundleId(" ++ toString x.bundle.toNat ++ "), state: " ++ x.phase.render ++ " \x7d"

def renderReference (w : World α) (ref : Reference) : String :=
  "ServiceReference \x7b id: ReferenceId(" ++ toString ref.id ++ "), service_id: ServiceId(" ++
    toString ref.service ++ "), valid: " ++ toString (w.isValid ref.target) ++ " \x7d"

def renderRegistry (w : World α) (g : Registry α) : String :=
  "ServiceRegistry \x7b config: " ++ g.config.render ++ ", registrations: " ++
    toString (w.registrationCount g) ++ ", sink: " ++ toString g.hasSink ++ " \x7d"

end World

end Switchboard
