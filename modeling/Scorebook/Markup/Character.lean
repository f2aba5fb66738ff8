/-!
# Characters of markup

XML names the characters that a document may hold, the few of them that are blank, and those that
a name may begin with or contain. The tables are those of the fifth edition of XML 1.0.
-/

namespace Scorebook.Markup

/-- Blank characters between the parts of a tag. -/
def isSpace (c : Char) : Bool :=
  c = ' ' || c = '\t' || c = '\n' || c = '\r'

/-- Characters that a document may hold. -/
def isLegal (c : Char) : Bool :=
  (0x20 ≤ c.toNat && c.toNat ≠ 0xFFFE && c.toNat ≠ 0xFFFF) || c = '\t' || c = '\n' || c = '\r'

def skipSpaces (cs : List Char) : List Char :=
  cs.dropWhile isSpace

/-! ## Names -/

/-- Whether a number lies in one of these ranges, both ends included. -/
def inRanges (ranges : List (Nat × Nat)) (n : Nat) : Bool :=
  ranges.any fun (first, last) => first ≤ n && n ≤ last

def nameStartRanges : List (Nat × Nat) :=
  [(0x3A, 0x3A), (0x41, 0x5A), (0x5F, 0x5F), (0x61, 0x7A), (0xC0, 0xD6), (0xD8, 0xF6),
    (0xF8, 0x2FF), (0x370, 0x37D), (0x37F, 0x1FFF), (0x200C, 0x200D), (0x2070, 0x218F),
    (0x2C00, 0x2FEF), (0x3001, 0xD7FF), (0xF900, 0xFDCF), (0xFDF0, 0xFFFD), (0x10000, 0xEFFFF)]

/-- What a name may contain but not begin with. -/
def nameRestRanges : List (Nat × Nat) :=
  [(0x2D, 0x2E), (0x30, 0x39), (0xB7, 0xB7), (0x300, 0x36F), (0x203F, 0x2040)]

def isNameStart (c : Char) : Bool :=
  inRanges nameStartRanges c.toNat

def isNameChar (c : Char) : Bool :=
  isNameStart c || inRanges nameRestRanges c.toNat

end Scorebook.Markup
