/-
  Switchboard.World.Use — consumers take and give back uses.

  A `get` counts its use first, then resolves the object, which may call the factory, and then
  decides in a final section (`settlement`), for much may have changed in between. An `unget`
  gives back one use; the object goes back to the factory with the last.
-/

import Switchboard.World.Outcome

namespace Switchboard

namespace World

variable {α : Type}

def get (w : World α) (r : Nat) (g : Registry α) (b : BundleId) (ref : Reference) : Outcome α :=
  match w.behind? ref with
  | none => w.finish (.object none)
  | some x =>
    let h := ref.target
    let (cached, ledger) := g.ledger.acquire b ref
    let w := w.setRegistry r { g with ledger := ledger }
    after [.acquired r b ref] <| w.place <|
      match cached, x.source with
      | some o, _ => .settling r h b ref false (some o)
      | none, .object o => .settling r h b ref true (some o)
      | none, .factory => .resolving r h b ref

structure Settlement (α : Type) where
  object : Option α
  due : List α
  ledger : Ledger α

/-- The final section of a `get`. An object counts only while the registration is valid. A
    fresh one is cached, unless another was cached meanwhile, or the use is gone; then it goes
    back. Where there is no object to give, the use is given up. -/
def settlement (w : World α) (g : Registry α) (h : Handle) (b : BundleId) (ref : Reference) (fresh : Bool)
    (o : Option α) : Settlement α :=
  let valid := w.isValid h
  match o, valid, fresh with
  | some o, true, false => ⟨some o, [], g.ledger⟩
  | some o, true, true =>
    match g.ledger.store b ref.id o with
    | (.kept, ledger) => ⟨some o, [], ledger⟩
    | (.existing cached, ledger) => ⟨some cached, [o], ledger⟩
    | (.missing, ledger) => ⟨none, [o], ledger⟩
  | o, valid, fresh =>
    match g.ledger.release b ref.id (!valid) with
    | (.flushed cached, ledger) => ⟨none, (o.filter fun _ => fresh).toList ++ cached.toList, ledger⟩
    | (_, ledger) => ⟨none, (o.filter fun _ => fresh).toList, ledger⟩

def settle (w : World α) (r : Nat) (g : Registry α) (h : Handle) (b : BundleId) (ref : Reference) (fresh : Bool)
    (o : Option α) : Outcome α :=
  let e := w.settlement g h b ref fresh o
  let w := w.setRegistry r { g with ledger := e.ledger }
  let os := if o.isNone then [.unresolved r b h] else []
  after (os ++ [.decided r b ref e.object]) (w.release r h (e.due.map (b, ·)) (.got b ref e.object))

/-- What one `unget` does to the ledger, and the object to give back, if any. A use of what is
    no longer valid is given up with all others of its pair. -/
def ungetOne (w : World α) (r : Nat) (g : Registry α) (b : BundleId) (ref : Reference) :
    Bool × Option α × Outcome α :=
  let alive := w.isAlive ref.target
  match g.ledger.release b ref.id (!w.isValid ref.target) with
  | (.notFound, _) => (false, none, w, [])
  | (.decremented n, ledger) =>
    (true, none, w.setRegistry r { g with ledger := ledger }, [.released r b ref n])
  | (.flushed cached, ledger) =>
    (true, cached.filter fun _ => alive && w.isFactory ref.target,
      w.setRegistry r { g with ledger := ledger }, [.flushed r b ref])

def unget (w : World α) (r : Nat) (g : Registry α) (b : BundleId) (ref : Reference) : Outcome α :=
  match w.ungetOne r g b ref with
  | (_, some o, w, os) => after os (w.release r ref.target [(b, o)] .ungot)
  | (found, none, w, os) => after os (w.finish (.flag found))

/-- One release of the first of the references that a bundle is to lose. It stays first until
    no use of it is found. -/
def ungetNext (w : World α) (r : Nat) (g : Registry α) (b : BundleId) : List Reference → Outcome α
  | [] => w.finish .done
  | ref :: rest =>
    match w.ungetOne r g b ref with
    | (_, some o, w, os) =>
      let (w, os') := w.place (.ungetting r b (ref :: rest))
      after (os ++ os') (w.release r ref.target [(b, o)] .ungot)
    | (found, none, w, os) => after os (w.place (.ungetting r b (if found then ref :: rest else rest)))

end World

end Switchboard
