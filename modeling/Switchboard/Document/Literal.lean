/-
  Switchboard.Document.Literal — texts as a document writes them.

  A text stands between quotes (escapes count) or apostrophes (they do not), single and on one
  line, or tripled and over several. Reading it takes two steps: find where it closes, which
  leaves the raw body, and then decode the body. A tripled text drops a line break at its very
  start, and keeps up to two delimiters that touch the closing ones. In a quoted text over
  several lines a backslash at the end of a line folds the break and all blanks after it.
-/

import Switchboard.Document.Number

namespace Switchboard.Document

def isGap (c : Char) : Bool := c == ' ' || c == '\t'

def isPlain (c : Char) : Bool := c == '\t' || (decide (' ' ≤ c) && c != '\x7f')

/-! ## Where a text closes -/

/-- The raw body up to the closing delimiter, and what follows it. After a backslash the next
    character closes nothing, where `escapes` says so. -/
def closeSingle (q : Char) (escapes : Bool) : List Char → Option (List Char × List Char)
  | [] => none
  | [c] => if c == q then some ([], []) else none
  | c :: d :: cs =>
    if c == q then some ([], d :: cs)
    else if c == '\\' && escapes then (closeSingle q escapes cs).map fun (b, r) => (c :: d :: b, r)
    else (closeSingle q escapes (d :: cs)).map fun (b, r) => (c :: b, r)

/-- Up to two more delimiters after the closing three belong to the body. -/
def surplus (q : Char) (cs : List Char) : List Char × List Char :=
  let n := min 2 (cs.takeWhile (· == q)).length
  (cs.take n, cs.drop n)

def closeTriple (q : Char) (escapes : Bool) : List Char → Option (List Char × List Char)
  | a :: b :: c :: cs =>
    if a == q && b == q && c == q then some (surplus q cs)
    else if a == '\\' && escapes then
      (closeTriple q escapes (c :: cs)).map fun (body, r) => (a :: b :: body, r)
    else (closeTriple q escapes (b :: c :: cs)).map fun (body, r) => (a :: body, r)
  | _ => none

/-! ## What a body says -/

def scalar? (hex : List Char) : Option Char := do
  let ds ← hex.mapM (digit? 16)
  let n := ds.foldl (fun n d => n * 16 + d) 0
  if n.isValidChar then some (Char.ofNat n) else none

def letter? : Char → Option Char
  | 'b' => some '\x08'
  | 't' => some '\t'
  | 'n' => some '\n'
  | 'f' => some '\x0c'
  | 'r' => some '\r'
  | 'e' => some '\x1b'
  | '"' => some '"'
  | '\\' => some '\\'
  | _ => none

def opensFold (cs : List Char) : Bool :=
  match cs.dropWhile isGap with
  | '\n' :: _ => true
  | '\r' :: '\n' :: _ => true
  | _ => false

/-- The text of a quoted body. Line breaks may stand in it where `lines` says so, and there a
    backslash folds one, `folding` in the blanks after it. The digits of a hexadecimal escape
    stand together: no fold parts them. -/
def unescape (lines folding : Bool) : List Char → Option (List Char)
  | [] => some []
  | '\\' :: 'x' :: a :: b :: cs => do some ((← scalar? [a, b]) :: (← unescape lines false cs))
  | '\\' :: 'u' :: a :: b :: c :: d :: cs => do
    some ((← scalar? [a, b, c, d]) :: (← unescape lines false cs))
  | '\\' :: 'U' :: a :: b :: c :: d :: e :: f :: g :: h :: cs => do
    some ((← scalar? [a, b, c, d, e, f, g, h]) :: (← unescape lines false cs))
  | '\\' :: c :: cs =>
    if lines && opensFold (c :: cs) then unescape lines true (c :: cs)
    else do some ((← letter? c) :: (← unescape lines false cs))
  | '\r' :: '\n' :: cs =>
    if folding then unescape lines true cs
    else if lines then do some ('\r' :: '\n' :: (← unescape lines false cs))
    else none
  | c :: cs =>
    if folding && (isGap c || c == '\n') then unescape lines true cs
    else if (isPlain c && c != '\\') || (lines && c == '\n') then do
      some (c :: (← unescape lines false cs))
    else none

def verbatim (lines : Bool) : List Char → Option (List Char)
  | [] => some []
  | '\r' :: '\n' :: cs =>
    if lines then do some ('\r' :: '\n' :: (← verbatim lines cs)) else none
  | c :: cs =>
    if isPlain c || (lines && c == '\n') then do some (c :: (← verbatim lines cs)) else none

def dropFirstBreak : List Char → List Char
  | '\n' :: cs => cs
  | '\r' :: '\n' :: cs => cs
  | cs => cs

/-! ## Reading -/

def decode (closed : Option (List Char × List Char)) (text : List Char → Option (List Char)) :
    Option (String × List Char) := do
  let (body, rest) ← closed
  some (String.ofList (← text body), rest)

def line? : List Char → Option (String × List Char)
  | '"' :: cs => decode (closeSingle '"' true cs) (unescape false false)
  | '\'' :: cs => decode (closeSingle '\'' false cs) (verbatim false)
  | _ => none

def text? : List Char → Option (String × List Char)
  | '"' :: '"' :: '"' :: cs =>
    decode (closeTriple '"' true cs) fun b => unescape true false (dropFirstBreak b)
  | '\'' :: '\'' :: '\'' :: cs =>
    decode (closeTriple '\'' false cs) fun b => verbatim true (dropFirstBreak b)
  | cs => line? cs

example : text? "\"\"\"a\\  \n  \\u0062\"\"\"".toList = some ("ab", []) := by decide +kernel
example : text? "\"\"\"\\u00\\\n62\"\"\"".toList = none := by decide +kernel

end Switchboard.Document
