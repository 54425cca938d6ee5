/-
  Switchboard.Scenario.Reaction — how a scenario answers its call backs.

  `Bench.respond` turns a question into a play that ends with the answer: it logs the call back,
  runs the steps that are scripted for it, and says what the script says. A filter is a tree
  that is walked from left to right and may run steps on the way (`Filter.ask`).
-/

import Switchboard.Scenario.Play

namespace Switchboard.Scenario

/-! ## Filters -/

mutual

def Filter.ask (r : Nat) (p : Properties) (k : Bool → Act.Next) : Filter → Act.Next
  | .equals key value => k (p.get? key == some value)
  | .has key => k (p.contains key)
  | .not f => f.ask r p fun b => k (!b)
  | .all fs => Filter.askAll r p k fs
  | .any fs => Filter.askAny r p k fs
  | .const b => k b
  | .lookup key service => fun t =>
    (t, .call r (.findOne service) fun reply t =>
      let found := match reply with
        | .reference (some ref) => (t.world.behind? ref).bind (·.properties.get? key)
        | _ => none
      k (p.get? key == found) t)
  | .log f => fun t => f.ask r p k (t.write (.filter p))
  | .perform steps f => fun t =>
    match t.searches with
    | ⟨g, n + 1⟩ :: rest =>
      Bench.performAll ⟨r, none, none⟩ (f.ask r p k) steps { t with searches := ⟨g, n⟩ :: rest }
    | _ => f.ask r p k t

/-- Do all filters pick the properties? The first that does not settles it. -/
def Filter.askAll (r : Nat) (p : Properties) (k : Bool → Act.Next) : List Filter → Act.Next
  | [] => k true
  | f :: fs => f.ask r p fun b => if b then Filter.askAll r p k fs else k false

def Filter.askAny (r : Nat) (p : Properties) (k : Bool → Act.Next) : List Filter → Act.Next
  | [] => k false
  | f :: fs => f.ask r p fun b => if b then k true else Filter.askAny r p k fs

end

/-! ## Call backs -/

namespace Bench

def produce (t : Bench) (b : BundleId) (n : Nat) (specs : Option (List (Option ItemSpec))) :
    Option Item × Bench :=
  let spec := match specs with
    | some specs => pick n specs
    | none => some (.tagged ("for " ++ b.render))
  match spec with
  | some spec => let (o, t) := t.make spec; (some o, t)
  | none => (none, t)

def phase (t : Bench) (h : Handle) : Phase := (t.world.phase? h).getD .invalid

/-- The answer to a question, after the steps that are scripted for it. -/
def respond (t : Bench) : Question Item → Bench × Play
  | .event r kind h old =>
    match t.world.registration? h, t.world.registries[r]? with
    | some x, some g =>
      let t := t.write (.event kind r x.id x.phase x.properties old (t.world.registrationCount g))
      let (steps, handlers) := takeHandler kind x.name (t.handlers[r]?.getD [])
      let t := { t with handlers := t.handlers.setIfInBounds r handlers }
      performAll ⟨r, some h, none⟩ (fun t => (t, .answer .done)) steps t
    | _, _ => (t, .answer .done)
  | .filter r p =>
    match t.searches with
    | s :: _ => s.filter.ask r p (fun b t => (t, .answer (.verdict b))) t
    | [] => (t, .answer (.verdict true))
  | .supply h b =>
    match t.factories.lookup h with
    | none => (t, .answer (.supplied none))
    | some f =>
      let t := t.updateFactory h fun f => { f with gets := f.gets + 1 }
      match f.script with
      | .silent specs =>
        let t := t.write (.closureGet (t.world.serviceId h))
        let (o, t) := t.produce b f.gets (some specs)
        (t, .answer (.supplied o))
      | .full specs onGet _ =>
        let t := t.write (.factoryGet (t.world.serviceId h) b (t.phase h))
        performAll ⟨f.home, some h, some b⟩ (fun t =>
          let (o, t) := t.produce b f.gets specs
          (t, .answer (.supplied o))) (onGet[f.gets]?.getD []) t
  | .takeBack h b o =>
    match t.factories.lookup h with
    | some ⟨.full _ _ onUnget, home, _, n⟩ =>
      let t := t.updateFactory h fun f => { f with ungets := f.ungets + 1 }
      let t := t.write (.factoryUnget (t.world.serviceId h) b o (t.phase h))
      performAll ⟨home, some h, some b⟩ (fun t => (t, .answer .done)) (onUnget[n]?.getD []) t
    | _ => (t, .answer .done)

end Bench

end Switchboard.Scenario
