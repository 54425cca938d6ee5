/-
  Switchboard.Text.Blank — the blank characters of Unicode (property White_Space) and blank
  texts.

  A text is blank when nothing is left of it once blanks are trimmed from both ends, which
  is when every character of it is blank (`isBlank`). The class has 25 members, all below
  U+3001. Zero-width characters (U+180E, U+200B, U+2060, U+FEFF) are not among them.
-/

namespace Switchboard.Text

def blankRuns : List (Nat × Nat) :=
  [(0x9, 0xD), (0x20, 0x20), (0x85, 0x85), (0xA0, 0xA0), (0x1680, 0x1680), (0x2000, 0x200A),
   (0x2028, 0x2029), (0x202F, 0x202F), (0x205F, 0x205F), (0x3000, 0x3000)]

/-- Does some run hold the code point? The runs ascend, so the first that does not end before
    it decides. -/
def inRuns (runs : List (Nat × Nat)) (n : Nat) : Bool :=
  (runs.find? fun run => decide (n ≤ run.2)).any fun run => decide (run.1 ≤ n)

def isBlankChar (c : Char) : Bool := inRuns blankRuns c.toNat

def isBlank (s : String) : Bool := s.toList.all isBlankChar

end Switchboard.Text
