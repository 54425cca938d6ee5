/-
  Switchboard.Config — the configuration of a registry.

  A configuration is read from a document of settings (`ofText`), or from the bytes of a file
  that holds one (`ofFile`), and validated. Every setting may be left out. Validation looks at
  the settings in a fixed order and reports the first that is unusable.
-/

import Switchboard.Document.Basic
import Switchboard.Table.Basic
import Switchboard.Text.Quoted

namespace Switchboard

structure Config where
  firstServiceId : Nat
  /-- Services published under this name are listener hooks. -/
  hookName : String
  initialCapacity : Nat
  deriving DecidableEq

inductive Config.Fault where
  | firstServiceId
  | hookName
  | initialCapacity (got : Nat)
  deriving DecidableEq

inductive ConfigError where
  | notFound
  | notText
  | malformed
  | invalid (fault : Config.Fault)
  deriving DecidableEq

namespace Config

def Fault.message : Fault → String
  | firstServiceId => "first_service_id must be at least 1"
  | hookName => "listener_hook_service must not be empty"
  | initialCapacity got =>
    "initial_capacity must be within 1..=" ++ toString Table.maxCapacity ++ ", got " ++ toString got

def standard : Config := ⟨1, "listener_hook_service", Table.defaultCapacity⟩

/-- The first unusable setting. -/
def fault? (c : Config) : Option Fault :=
  if c.firstServiceId = 0 then some .firstServiceId
  else if Text.isBlank c.hookName then some .hookName
  else if c.initialCapacity = 0 ∨ Table.maxCapacity < c.initialCapacity then
    some (.initialCapacity c.initialCapacity)
  else none

def validate (c : Config) : Except ConfigError Config :=
  match c.fault? with
  | some f => .error (.invalid f)
  | none => .ok c

/-! ## Reading -/

/-- Numbers are 64 bits wide. -/
def numberLimit : Nat := 1 <<< 64

def set? (c : Config) : Document.Setting → Option Config
  | ⟨"first_service_id", .number n⟩ => if n < numberLimit then some { c with firstServiceId := n } else none
  | ⟨"initial_capacity", .number n⟩ => if n < numberLimit then some { c with initialCapacity := n } else none
  | ⟨"listener_hook_service", .text s⟩ => some { c with hookName := s }
  | _ => none

/-- The configuration that settings give. No key may be set twice. -/
def ofSettings? (es : List Document.Setting) : Option Config :=
  if (es.map (·.key)).Nodup then es.foldlM set? standard else none

def ofText (s : String) : Except ConfigError Config :=
  match (Document.settings? s).bind ofSettings? with
  | some c => c.validate
  | none => .error .malformed

/-- The configuration in a file of these bytes; `none` where there is no file. -/
def ofFile : Option ByteArray → Except ConfigError Config
  | none => .error .notFound
  | some bytes =>
    match String.fromUTF8? bytes with
    | some s => ofText s
    | none => .error .notText

def render (c : Config) : String :=
  "RegistryConfig \x7b first_service_id: " ++ toString c.firstServiceId ++
    ", listener_hook_service: " ++ Text.quoted c.hookName ++
    ", initial_capacity: " ++ toString c.initialCapacity ++ " \x7d"

end Config

def ConfigError.message : ConfigError → String
  | notFound => "no such file"
  | notText => "the file is not text"
  | malformed => "config parse error"
  | invalid f => "invalid config: " ++ f.message

end Switchboard
