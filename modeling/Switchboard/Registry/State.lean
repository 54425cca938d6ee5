/-
  Switchboard.Registry.State — the state of one registry.

  `index` lists the active registrations of each publisher in the order they were published,
  `hooks` those published under the configured hook name. `references` are all references
  handed out; the one at position `i` has the id `i + 1`, so ids are never reused.
-/

import Switchboard.Config
import Switchboard.Registry.Ledger

namespace Switchboard

structure Registry (α : Type) where
  config : Config
  hasSink : Bool
  index : Shelf Keying.bundle Handle
  hooks : List Handle
  ledger : Ledger α
  nextService : ServiceId
  references : Array Reference

namespace Registry

variable {α : Type}

def ofConfig (c : Config) (hasSink : Bool) : Registry α where
  config := c
  hasSink := hasSink
  index := Table.withCapacity _ _ c.initialCapacity
  hooks := []
  ledger := .withCapacity c.initialCapacity
  nextService := c.firstServiceId
  references := #[]

def owned (g : Registry α) (b : BundleId) : List Handle := g.index.listAt b

def isIndexed (g : Registry α) (b : BundleId) (h : Handle) : Bool := (g.owned b).contains h

/-- Takes in a new registration: the next service id is used up. -/
def enlist (g : Registry α) (b : BundleId) (name : String) (h : Handle) : Registry α :=
  { g with index := g.index.pushAt b h,
           hooks := if name == g.config.hookName then g.hooks ++ [h] else g.hooks,
           nextService := g.nextService + 1 }

def unlist (g : Registry α) (b : BundleId) (h : Handle) : Registry α :=
  { g with index := g.index.trimAt b (· != h), hooks := g.hooks.filter (· != h) }

def mint (g : Registry α) (service : ServiceId) (h : Handle) : Reference × Registry α :=
  let r := ⟨g.references.size + 1, service, h⟩
  (r, { g with references := g.references.push r })

def knows (g : Registry α) (r : Reference) : Bool :=
  decide (0 < r.id) && g.references[r.id - 1]? == some r

end Registry

end Switchboard
