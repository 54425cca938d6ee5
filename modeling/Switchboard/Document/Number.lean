/-
  Switchboard.Document.Number — whole numbers as a document writes them.

  Decimal, with a sign if one likes and no leading zero; or after `0x`, `0o` or `0b`, in that
  base, without a sign. An underscore may stand between two digits. No setting takes a
  negative number, so of those only `-0` is read.
-/

namespace Switchboard.Document

def digit? (base : Nat) (c : Char) : Option Nat :=
  let value :=
    if c.isDigit then some (c.toNat - '0'.toNat)
    else if 'a' ≤ c ∧ c ≤ 'f' then some (c.toNat - 'a'.toNat + 10)
    else if 'A' ≤ c ∧ c ≤ 'F' then some (c.toNat - 'A'.toNat + 10)
    else none
  value.filter (· < base)

/-- One or more digits, with single underscores between them. -/
def digits? (base : Nat) : List Char → Option (List Nat)
  | [] => none
  | [c] => (digit? base c).map ([·])
  | c :: '_' :: cs => do some ((← digit? base c) :: (← digits? base cs))
  | c :: cs => do some ((← digit? base c) :: (← digits? base cs))

def natural? (base : Nat) (cs : List Char) : Option Nat :=
  (digits? base cs).map fun ds => ds.foldl (fun n d => n * base + d) 0

/-- A decimal number starts with a zero only if it is zero. -/
def decimal? : List Char → Option Nat
  | ['0'] => some 0
  | '0' :: _ => none
  | cs => natural? 10 cs

def number? : List Char → Option Nat
  | '0' :: 'x' :: cs => natural? 16 cs
  | '0' :: 'o' :: cs => natural? 8 cs
  | '0' :: 'b' :: cs => natural? 2 cs
  | '+' :: cs => decimal? cs
  | '-' :: cs => (decimal? cs).filter (· == 0)
  | cs => decimal? cs

example : number? "1_000".toList = some 1000 := by decide +kernel
example : number? "0xdead_BEEF".toList = some 0xdeadbeef := by decide +kernel
example : number? "1__0".toList = none := by decide +kernel
example : number? "+0x10".toList = none := by decide +kernel

end Switchboard.Document
