/-
  Switchboard.Registry.Basic — what a registry holds and hands out.

  A registration is one published service. It is known by its handle, which is its identity;
  ids are only unique within the registry that gave them. Its phase moves forward only:
  active, unregistering, invalid.

  A reference is a consumer's pointer to a registration. It does not keep the registration,
  and it has an id of its own: two references to one registration are different.
-/

import Switchboard.Properties
import Switchboard.Table.Shelf

namespace Switchboard

abbrev BundleId := UInt64

/-- Number of a service within its registry. It has no bound; a registry counts in words. -/
abbrev ServiceId := Nat

/-- The word of 64 bits that a registry has for the id: its counter wraps around. -/
def ServiceId.word (n : ServiceId) : UInt64 := UInt64.ofNat n

/-- Identity of a registration, across registries. -/
abbrev Handle := Nat

def BundleId.render (b : BundleId) : String := "bundle#" ++ toString b.toNat

def rotateLeft (h k : UInt64) : UInt64 := (h <<< k) ||| (h >>> (64 - k))

/-- Multiplicative hashing of bundle ids: the product with an odd constant, rotated so that its
    high bits come low, and folded to half its width. -/
def BundleId.hash (b : BundleId) : UInt32 :=
  let h := rotateLeft (b * 0xf1357aea2e62a9c5) 26
  (h ^^^ (h >>> 32)).toUInt32

def Keying.bundle : Keying BundleId where
  hash := BundleId.hash
  same a b := a == b

inductive Phase where
  | active
  /-- Out of the indexes while the sink is being told; still valid. -/
  | unregistering
  | invalid
  deriving DecidableEq

/-- What a registration hands out: one object to all, or what a factory makes for each
    consumer. The factory itself belongs to the publisher. -/
inductive Source (α : Type) where
  | object (o : α)
  | factory

def Source.isFactory {α : Type} : Source α → Bool
  | object _ => false
  | factory => true

structure Registration (α : Type) where
  id : ServiceId
  name : String
  bundle : BundleId
  home : Nat
  source : Source α
  properties : Properties
  phase : Phase

structure Reference where
  /-- Its number in the registry that handed it out. -/
  id : Nat
  service : ServiceId
  target : Handle
  deriving DecidableEq

inductive EventKind where
  | registered
  | modified
  | unregistering
  deriving DecidableEq

inductive RegistryError where
  | emptyName
  | notOwner (service : ServiceId) (owner caller : BundleId)
  deriving DecidableEq

def RegistryError.message : RegistryError → String
  | emptyName => "service name must not be empty"
  | notOwner service owner caller =>
    "service " ++ toString service ++ " is owned by " ++ owner.render ++ ", not " ++ caller.render

end Switchboard
