/-
  Switchboard.Table.Recipe — keyings described as data.

  Keys are integers or texts. A recipe names a rule for hashing and a rule for sameness; the
  two are independent, so a recipe may well describe a keying that is not lawful.
-/

import Switchboard.Table.Keying
import Switchboard.Text.Quoted

namespace Switchboard

/-- A key given as data. An integer and a text are never equal. -/
inductive Key where
  | int (n : Int64)
  | text (s : String)
  deriving DecidableEq

namespace Key

def foldByte (acc : UInt32) (b : UInt8) : UInt32 := acc * 31 + b.toUInt32

def foldBytes (s : String) : UInt32 := s.toUTF8.data.toList.foldl foldByte 0

/-- The low 32 bits of an integer; the folded UTF-8 bytes of a text. -/
def low : Key → UInt32
  | int n => n.toUInt64.toUInt32
  | text s => foldBytes s

def lowered : Key → Key
  | int n => int n
  | text s => text (s.map Char.toLower)

def render : Key → String
  | int n => toString n.toInt
  | text s => Text.quoted s

def renderOptional : Option Key → String
  | none => "None"
  | some k => "Some(" ++ k.render ++ ")"

end Key

inductive HashRule where
  | low
  | lower
  | const (n : UInt32)
  | shift (n : UInt32)
  /-- The low bits modulo `n`. -/
  | residue (n : UInt32)

def HashRule.hash : HashRule → Key → UInt32
  | low, k => k.low
  | lower, k => k.lowered.low
  | const n, _ => n
  | shift n, k => k.low <<< n
  | residue n, k => k.low % n

inductive SameRule where
  | exact
  | caseless
  /-- Integers are the same if they leave the same remainder by `m`. -/
  | residue (m : Int)
  | never
  | always

def SameRule.same : SameRule → Key → Key → Bool
  | exact, j, k => j == k
  | caseless, j, k => j.lowered == k.lowered
  | residue m, .int a, .int b => a.toInt % m == b.toInt % m
  | residue _, j, k => j == k
  | never, _, _ => false
  | always, _, _ => true

structure Recipe where
  hash : HashRule
  same : SameRule
  absent : Option Key

def Recipe.keying (r : Recipe) : Keying Key where
  hash := r.hash.hash
  same := r.same.same
  absent k := r.absent == some k

end Switchboard
