/-
  Switchboard.Scenario.Bench — what a scenario keeps.

  Beside the world these are the names it gave to registrations and references, the uses its
  handlers have left, how often its factories were asked, and the log of the current step. A
  name holds on to its registration.
-/

import Switchboard.Scenario.Basic

namespace Switchboard.Scenario

structure FactoryState where
  script : Script
  home : Nat
  gets : Nat
  ungets : Nat

/-- A `find` in flight: its filter, and how often that may still run steps. -/
structure Search where
  filter : Filter
  uses : Nat

structure Bench where
  world : World Item
  handlers : Array (List Handler)
  factories : List (Handle × FactoryState)
  handles : List (String × Handle)
  references : List (String × Reference)
  bindings : Array (String × Reference)
  bundles : List BundleId
  made : Nat
  searches : List Search
  log : Array Entry
  tracing : Bool

/-- Where a step runs: the registry, registration and consumer its call back is about. -/
structure Context where
  registry : Nat
  handle : Option Handle
  consumer : Option BundleId

namespace Bench

def start (setups : List Setup) (tracing : Bool) : Bench where
  world := .start (setups.map fun s => (s.config, s.hasSink))
  handlers := (setups.map (·.handlers)).toArray
  factories := []
  handles := []
  references := []
  bindings := #[]
  bundles := []
  made := 0
  searches := []
  log := #[]
  tracing := tracing

def write (t : Bench) (e : Entry) : Bench := { t with log := t.log.push e }

def nameBundle (t : Bench) (b : BundleId) : Bench :=
  if t.bundles.contains b then t else { t with bundles := b :: t.bundles }

def rebind {β : Type} (es : List (String × β)) (name : String) (x : β) : List (String × β) :=
  (name, x) :: es.filter (·.1 != name)

/-! ## Objects -/

def make (t : Bench) : ItemSpec → Item × Bench
  | .text s => (.text s, t)
  | .number n => (.number n, t)
  | .tagged tag => (.tagged tag (t.made + 1), { t with made := t.made + 1 })

/-! ## Names -/

def handle? (t : Bench) (c : Context) : HandleArg → Option Handle
  | .named name => t.handles.lookup name
  | .current => c.handle

def bundle (c : Context) : BundleArg → BundleId
  | .id b => b
  | .consumer => c.consumer.getD 0

def letGo (t : Bench) (h : Handle) : Bench :=
  match t.world.play (.drop h) with
  | some (w, _) => { t with world := w }
  | none => t

def hold (t : Bench) (h : Handle) : Bench :=
  match t.world.play (.hold h) with
  | some (w, _) => { t with world := w }
  | none => t

/-- Names a registration that is already held for the name. -/
def bindHandle (t : Bench) (name : String) (h : Handle) : Bench :=
  let old := t.handles.lookup name
  let t := { t with handles := rebind t.handles name h }
  match old with
  | some h => t.letGo h
  | none => t

def dropHandle (t : Bench) (name : String) : Bool × Bench :=
  match t.handles.lookup name with
  | some h => (true, { t with handles := t.handles.filter (·.1 != name) }.letGo h)
  | none => (false, t)

def bindReference (t : Bench) (name : String) (ref : Reference) : Bench :=
  { t with references := rebind t.references name ref, bindings := t.bindings.push (name, ref) }

def bindAll (t : Bench) (name : Option String) (refs : List Reference) : Bench :=
  match name with
  | none => t
  | some name => refs.zipIdx.foldl (fun t p => t.bindReference (name ++ toString p.2) p.1) t

def nameOf (t : Bench) (ref : Reference) : String :=
  match t.bindings.find? fun p => p.2.id == ref.id && p.2.service == ref.service with
  | some p => p.1
  | none => "?"

/-! ## Views -/

def registrationInfo? (t : Bench) (h : Handle) : Option RegistrationInfo :=
  (t.world.registration? h).map fun x =>
    ⟨x.id, x.name, x.bundle, x.source.isFactory, x.phase, t.world.isValid h, x.properties⟩

def referenceInfo (t : Bench) (ref : Reference) : ReferenceInfo :=
  let x := t.world.behind? ref
  ⟨ref.service, x.isSome, x.map (·.name), x.map (·.bundle), x.map (·.properties)⟩

def sortBundles (bs : List BundleId) : List BundleId := bs.mergeSort fun a b => decide (a ≤ b)

def registryInfo (t : Bench) (g : Registry Item) : RegistryInfo where
  count := t.world.registrationCount g
  usage := t.references.filterMap fun (name, ref) =>
    match sortBundles (g.ledger.bundles ref.id) with
    | [] => none
    | bs => some (name, bs.map fun b => (b, (g.ledger.count? b ref.id).getD 0))
  inUse := (sortBundles t.bundles).filterMap fun b =>
    match g.ledger.references b with
    | [] => none
    | refs => some (b, refs.map t.nameOf)

def dump (t : Bench) : Dump where
  registrations := t.handles.filterMap fun (name, h) => (t.registrationInfo? h).map (name, ·)
  references := t.references.map fun (name, ref) => (name, t.referenceInfo ref)
  registries := t.world.registries.toList.map t.registryInfo

def counts (t : Bench) : List Nat := t.world.registries.toList.map t.world.registrationCount

/-! ## Call backs -/

/-- The first handler with uses left that fits loses one; gives its steps. -/
def takeHandler (kind : EventKind) (name : String) : List Handler → List Step × List Handler
  | [] => ([], [])
  | a :: as =>
    if 0 < a.uses ∧ a.kind = kind ∧ a.name.all (· == name) then
      (a.steps, { a with uses := a.uses - 1 } :: as)
    else
      let (steps, as) := takeHandler kind name as
      (steps, a :: as)

def pick (n : Nat) (specs : List (Option ItemSpec)) : Option ItemSpec :=
  (specs[n]?.or specs.getLast?).join

def updateFactory (t : Bench) (h : Handle) (f : FactoryState → FactoryState) : Bench :=
  match t.factories.lookup h with
  | some s => { t with factories := (h, f s) :: t.factories.filter (·.1 != h) }
  | none => t

end Bench

/-- Sorts by bundle each run of neighbouring entries on objects that one service got back;
    `run` is the run so far. The order in which a withdrawal gives objects back is no part of
    what a scenario shows. -/
def settleRun (service : ServiceId) (run : List Entry) : List Entry → List Entry
  | [] => sorted run
  | .factoryUnget id b o p :: es =>
    if id = service ∧ run ≠ [] then settleRun service (run ++ [.factoryUnget id b o p]) es
    else sorted run ++ settleRun id [.factoryUnget id b o p] es
  | e :: es => sorted run ++ e :: settleRun service [] es
where
  /-- Stable sorting by bundle. -/
  sorted (run : List Entry) : List Entry :=
    run.mergeSort fun a b =>
      match a, b with
      | .factoryUnget _ x _ _, .factoryUnget _ y _ _ => decide (x ≤ y)
      | _, _ => true

def settled (log : List Entry) : List Entry := settleRun 0 [] log

end Switchboard.Scenario
