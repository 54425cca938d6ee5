/-
  Switchboard.Text.Quoted — text in double quotes, with escapes.

  A quote and a backslash are escaped by a backslash, the common controls by a letter, and
  every other character that has no shape (`Switchboard.Text.isPrintable`) by its number in
  hexadecimal.
-/

import Switchboard.Text.Printable

namespace Switchboard.Text

/-- The number of a character in braces, in lower-case hexadecimal. -/
def numbered (c : Char) : List Char :=
  ['\\', 'u', '\x7b'] ++ Nat.toDigits 16 c.toNat ++ ['\x7d']

def quoteChar (c : Char) : List Char :=
  match c with
  | '"' => ['\\', '"']
  | '\\' => ['\\', '\\']
  | '\n' => ['\\', 'n']
  | '\r' => ['\\', 'r']
  | '\t' => ['\\', 't']
  | '\x00' => ['\\', '0']
  | c => if isPrintable c then [c] else numbered c

def quoted (s : String) : String :=
  String.ofList (['"'] ++ s.toList.flatMap quoteChar ++ ['"'])

end Switchboard.Text
