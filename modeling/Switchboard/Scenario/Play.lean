/-
  Switchboard.Scenario.Play — what a client does, step by step.

  The client side of a scenario is a `Play`: it calls an operation and goes on with the reply,
  or it answers the call back it is in. Steps are turned into a play by continuation: what
  comes after a step is given the step's result.
-/

import Switchboard.Scenario.Bench

namespace Switchboard.Scenario

inductive Play where
  /-- Calls an operation of registry `r` and goes on with its reply. -/
  | call (r : Nat) (op : Operation Item) (resume : Reply Item → Bench → Bench × Play)
  | drain (r : Nat) (b : BundleId) (ref : Reference) (n : Nat) (resume : Nat → Bench → Bench × Play)
  | answer (a : Answer Item)
  | stop (r : Result)

abbrev Act.Next : Type := Bench → Bench × Play

abbrev Act.After : Type := Result → Act.Next

namespace Bench

def ask (t : Bench) (r : Nat) (op : Operation Item) (result : Reply Item → Bench → Result × Bench)
    (k : Act.After) : Bench × Play :=
  (t, .call r op fun reply t =>
    let (x, t) := result reply t
    k x t)

def publish (t : Bench) (r : Nat) (b : BundleId) (name : String) (source : Source Item)
    (p : Option Properties) (binding : Option String) (k : Act.After) : Bench × Play :=
  t.ask r (.register b name source p) (fun reply t =>
    match reply with
    | .published h =>
      let t := match binding with
        | some name => t.bindHandle name h
        | none => t.letGo h
      (.number (t.world.serviceId h), t)
    | .refused e => (.refused e, t)
    | _ => (.null, t)) k

/-- Calls a lookup and names the references it gives, in an order of choice. -/
def lookUp (t : Bench) (r : Nat) (op : Operation Item) (order : List Reference → List Reference)
    (binding : Option String) (k : Act.After) : Bench × Play :=
  t.ask r op (fun reply t =>
    match reply with
    | .references refs =>
      let refs := order refs
      (.numbers (refs.map (·.service)), t.bindAll binding refs)
    | _ => (.null, t)) k

def byService (refs : List Reference) : List Reference :=
  refs.mergeSort fun a b => decide (a.service ≤ b.service)

def plain (reply : Reply Item) (t : Bench) : Result × Bench :=
  let x := match reply with
    | .flag b => .flag b
    | .count n => .number n
    | .bundles bs => .numbers ((sortBundles bs).map (·.toNat))
    | .usage (some n) => .number n
    | .object (some o) => .item o
    | .refused e => .refused e
    | _ => .null
  (x, t)

def withHandle (t : Bench) (c : Context) (h : HandleArg) (k : Act.After) (act : Handle → Bench × Play) :
    Bench × Play :=
  match t.handle? c h with
  | some h => act h
  | none => k .noHandle t

def withReference (t : Bench) (name : String) (k : Act.After) (act : Reference → Bench × Play) :
    Bench × Play :=
  match t.references.lookup name with
  | some ref => act ref
  | none => k .noHandle t

def textOrNull : Option String → Result
  | some s => .text s
  | none => .null

def act (t : Bench) (c : Context) (r : Nat) (k : Act.After) : Act → Bench × Play
  | .register b name spec p binding =>
    let b := bundle c b
    let (o, t) := (t.nameBundle b).make spec
    t.publish r b name (.object o) p binding k
  | .registerFactory b name script p binding =>
    let b := bundle c b
    let t := t.nameBundle b
    let t := { t with factories := (t.world.registrations.size, ⟨script, r, 0, 0⟩) :: t.factories }
    t.publish r b name .factory p binding k
  | .unregister b h =>
    let b := bundle c b
    let t := t.nameBundle b
    t.withHandle c h k fun h => t.ask r (.unregister b h) plain k
  | .unregisterAll b =>
    let b := bundle c b
    (t.nameBundle b).ask r (.unregisterAll b) plain k
  | .find name none _ binding => t.lookUp r (.find name false) byService binding k
  | .find name (some f) uses binding =>
    { t with searches := ⟨f, uses⟩ :: t.searches }.lookUp r (.find name true) byService binding fun x t =>
      k x { t with searches := t.searches.drop 1 }
  | .findOne name binding =>
    t.ask r (.findOne name) (fun reply t =>
      match reply with
      | .reference (some ref) =>
        (.reference ref.service ref.id, (binding.map fun name => t.bindReference name ref).getD t)
      | _ => (.null, t)) k
  | .registered b binding =>
    let b := bundle c b
    (t.nameBundle b).lookUp r (.registered b) id binding k
  | .hooks binding => t.lookUp r .hooks id binding k
  | .inUse b binding =>
    let b := bundle c b
    (t.nameBundle b).ask r (.inUse b) (fun reply t =>
      match reply with
      | .references refs => (.texts (refs.map t.nameOf), t.bindAll binding refs)
      | _ => (.null, t)) k
  | .users ref => t.withReference ref k fun ref => t.ask r (.users ref) plain k
  | .usage b ref =>
    let b := bundle c b
    let t := t.nameBundle b
    t.withReference ref k fun ref => t.ask r (.usage b ref) plain k
  | .count => t.ask r .count plain k
  | .get b ref =>
    let b := bundle c b
    let t := t.nameBundle b
    t.withReference ref k fun ref => t.ask r (.get b ref) plain k
  | .unget b ref =>
    let b := bundle c b
    let t := t.nameBundle b
    t.withReference ref k fun ref => t.ask r (.unget b ref) plain k
  | .drain b ref =>
    let b := bundle c b
    let t := t.nameBundle b
    t.withReference ref k fun ref => (t, .drain r b ref 0 fun n t => k (.number n) t)
  | .ungetAll b =>
    let b := bundle c b
    (t.nameBundle b).ask r (.ungetAll b) plain k
  | .setProperties h p => t.withHandle c h k fun h => t.ask r (.setProperties h p) plain k
  | .modified h old => t.withHandle c h k fun h => t.ask r (.modified h old) plain k
  | .registrationInfo h =>
    t.withHandle c h k fun h => k (((t.registrationInfo? h).map .registration).getD .null) t
  | .registrationProperty h key =>
    t.withHandle c h k fun h => k (textOrNull ((t.world.registration? h).bind (·.properties.get? key))) t
  | .referenceInfo ref => t.withReference ref k fun ref => k (.referenceInfo (t.referenceInfo ref)) t
  | .referenceProperty ref key =>
    t.withReference ref k fun ref => k (textOrNull ((t.world.behind? ref).bind (·.properties.get? key))) t
  | .sameReference a b =>
    t.withReference a k fun x => t.withReference b k fun y => k (.flag (x.id == y.id)) t
  | .sameRegistration a b => t.withHandle c a k fun x => t.withHandle c b k fun y => k (.flag (x == y)) t
  | .distinct names => k (.number (names.filterMap fun name => t.handles.lookup name).eraseDups.length) t
  | .keep h name => t.withHandle c h k fun h => k .null ((t.hold h).bindHandle name h)
  | .drop name =>
    let (bound, t) := t.dropHandle name
    k (.flag bound) t
  | .renderRegistration h =>
    t.withHandle c h k fun h => k (textOrNull ((t.world.registration? h).map World.renderRegistration)) t
  | .renderReference ref => t.withReference ref k fun ref => k (.text (t.world.renderReference ref)) t
  | .renderRegistry => k (textOrNull ((t.world.registries[r]?).map t.world.renderRegistry)) t
  | .display b h =>
    let b := bundle c b
    let t := t.nameBundle b
    t.withHandle c h k fun h => k (.texts [b.render, toString (t.world.serviceId h)]) t
  | .config => k (((t.world.registries[r]?).map fun g => .config g.config).getD .null) t
  | .dump => k (.dump t.dump) t
  | .unknown => k .unknownStep t

def perform (t : Bench) (c : Context) (k : Act.After) : Step → Bench × Play
  | .mk r a => t.act c (r.getD c.registry) k a

/-- Runs the steps of a call back, one after the other, and logs the result of each. -/
def performAll (c : Context) (k : Act.Next) : List Step → Act.Next
  | [], t => k t
  | s :: ss, t => t.perform c (fun x t => performAll c k ss (t.write (.step x))) s

end Bench

end Switchboard.Scenario
