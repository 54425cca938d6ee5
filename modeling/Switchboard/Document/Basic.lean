/-
  Switchboard.Document.Basic — a document of settings.

  A document is a sequence of lines. A line is empty, or it assigns a value, a whole number or
  a text, to a key; blanks may stand around each part and a comment may end the line. Anything
  else (tables, arrays, dates, fractions, ...) is not a document of settings, so `settings?`
  gives nothing for it. Which keys there are and what they take is for `Switchboard.Config`.
-/

import Switchboard.Document.Literal

namespace Switchboard.Document

inductive Value where
  | number (n : Nat)
  | text (s : String)
  deriving DecidableEq

structure Setting where
  key : String
  value : Value
  deriving DecidableEq

def skipGap (cs : List Char) : List Char := cs.dropWhile isGap

def isBareKeyChar (c : Char) : Bool := c.isAlphanum || c == '_' || c == '-'

/-- The characters of a value that is not a text, up to what ends it. -/
def isTokenChar (c : Char) : Bool := isBareKeyChar c || c == '+' || c == '.' || c == ':'

def key? (cs : List Char) : Option (String × List Char) :=
  match cs.takeWhile isBareKeyChar with
  | [] => line? cs
  | name => some (String.ofList name, cs.dropWhile isBareKeyChar)

def value? (cs : List Char) : Option (Value × List Char) :=
  match text? cs with
  | some (s, rest) => some (.text s, rest)
  | none => (number? (cs.takeWhile isTokenChar)).map fun n => (.number n, cs.dropWhile isTokenChar)

def setting? (cs : List Char) : Option (Setting × List Char) := do
  let (key, cs) ← key? cs
  match skipGap cs with
  | '=' :: cs =>
    let (value, cs) ← value? (skipGap cs)
    some (⟨key, value⟩, cs)
  | _ => none

/-- The end of a line, after blanks and a comment: a line break, which is taken, or the end of
    the document. -/
def endOfLine? (cs : List Char) : Option (List Char) :=
  let cs := skipGap cs
  let cs := if cs.head? == some '#' then cs.dropWhile isPlain else cs
  match cs with
  | [] => some []
  | '\n' :: cs => some cs
  | '\r' :: '\n' :: cs => some cs
  | _ => none

def line (cs : List Char) : Option (Option Setting × List Char) :=
  match endOfLine? cs with
  | some rest => some (none, rest)
  | none => do
    let (setting, cs) ← setting? (skipGap cs)
    some (some setting, ← endOfLine? cs)

def lines : Nat → List Char → Option (List Setting)
  | _, [] => some []
  | 0, _ => none
  | n + 1, cs => do
    let (setting, rest) ← line cs
    some (setting.toList ++ (← lines n rest))

/-- The settings of a document in their order. A byte order mark may precede them. No document
    has more lines than characters. -/
def settings? (s : String) : Option (List Setting) :=
  let cs := match s.toList with
    | '\ufeff' :: cs => cs
    | cs => cs
  lines cs.length cs

end Switchboard.Document
