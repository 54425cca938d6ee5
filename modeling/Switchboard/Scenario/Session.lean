/-
  Switchboard.Scenario.Session — how a scenario plays against a world.

  A session runs plays against the world, one move at a time (`Session.advance`). While an
  operation is in flight, what is to become of its reply waits on a stack, as the operation
  does in the world. A session only ever makes legal moves.
-/

import Switchboard.Scenario.Reaction

namespace Switchboard.Scenario

structure Session where
  bench : Bench
  /-- What the client does next; nothing while an operation runs. -/
  play : Option Play
  /-- What becomes of the replies of the operations in flight, the innermost first. -/
  waiting : List (Reply Item → Bench → Bench × Play)

namespace Session

def start (setups : List Setup) (tracing : Bool) : Session := ⟨.start setups tracing, none, []⟩

def begin (s : Session) (step : Step) : Session :=
  let (t, play) := { s.bench with log := #[] }.perform ⟨0, none, none⟩ (fun x t => (t, .stop x)) step
  { s with bench := t, play := some play }

/-- Takes note of what happened; an operation that returned gives its reply to the client. -/
def absorb (s : Session) : List (Occurrence Item) → Session
  | [] => s
  | .returned reply :: os =>
    match s.waiting with
    | resume :: rest =>
      let (t, play) := resume reply s.bench
      absorb { bench := t, play := some play, waiting := rest } os
    | [] => absorb s os
  | o :: os =>
    match s.bench.tracing, o.note? s.bench.world with
    | true, some n => absorb { s with bench := s.bench.write (.note n) } os
    | _, _ => absorb s os

def move? (s : Session) (m : Move Item) : Option Session :=
  (s.bench.world.play m).map fun (w, os) =>
    absorb { s with bench := { s.bench with world := w }, play := none } os

def advance (s : Session) : Option Session :=
  match s.play with
  | some (.stop _) => none
  | some (.call r op resume) => { s with waiting := resume :: s.waiting }.move? (.call r op)
  | some (.drain r b ref n resume) =>
    { s with waiting := (fun reply t =>
      match reply with
      | .flag true => (t, .drain r b ref (n + 1) resume)
      | _ => resume n t) :: s.waiting }.move? (.call r (.unget b ref))
  | some (.answer a) => s.move? (.answer a)
  | none =>
    match s.bench.world.pending? with
    | some q =>
      let (t, play) := s.bench.respond q
      some { s with bench := t, play := some play }
    | none => s.move? .tick

def result (s : Session) : Result :=
  match s.play with
  | some (.stop x) => x
  | _ => .null

end Session

end Switchboard.Scenario
