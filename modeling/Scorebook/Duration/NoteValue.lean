/-!
# Note values

A note value is one of ten undotted values, from the longa of four whole notes down to the 128th,
with any number of dots. Each dot adds half of what the one before it added, so `n` dots stretch a
value by `2 - 2⁻ⁿ`. Lengths are measured in whole notes, exactly.
-/

namespace Scorebook

/-- An undotted note value. -/
inductive NoteHead where
  | longa | breve | whole | half | quarter | eighth
  | sixteenth | thirtySecond | sixtyFourth | hundredTwentyEighth
  deriving DecidableEq, Repr

namespace NoteHead

/-- From the longest to the shortest. -/
def all : List NoteHead :=
  [longa, breve, whole, half, quarter, eighth, sixteenth, thirtySecond, sixtyFourth,
    hundredTwentyEighth]

def length : NoteHead → Rat
  | longa => 4
  | breve => 2
  | whole => 1
  | half => mkRat 1 2
  | quarter => mkRat 1 4
  | eighth => mkRat 1 8
  | sixteenth => mkRat 1 16
  | thirtySecond => mkRat 1 32
  | sixtyFourth => mkRat 1 64
  | hundredTwentyEighth => mkRat 1 128

def text : NoteHead → String
  | longa => "\\longa"
  | breve => "\\breve"
  | whole => "1"
  | half => "2"
  | quarter => "4"
  | eighth => "8"
  | sixteenth => "16"
  | thirtySecond => "32"
  | sixtyFourth => "64"
  | hundredTwentyEighth => "128"

/-- The value that a document calls by this name. -/
def named? : String → Option NoteHead
  | "long" => some longa
  | "breve" => some breve
  | "whole" => some whole
  | "half" => some half
  | "quarter" => some quarter
  | "eighth" => some eighth
  | "16th" => some sixteenth
  | "32nd" => some thirtySecond
  | "64th" => some sixtyFourth
  | "128th" => some hundredTwentyEighth
  | _ => none

theorem mem_all (h : NoteHead) : h ∈ all := by
  cases h <;> decide

end NoteHead

/-! ## Dots -/

/-- A run of augmentation dots. -/
def dotsText (dots : Nat) : String :=
  "".pushn '.' dots

/-- An undotted value and its dots. -/
structure NoteValue where
  head : NoteHead
  dots : Nat
  deriving DecidableEq, Repr

namespace NoteValue

def length (v : NoteValue) : Rat :=
  v.head.length * (2 - mkRat 1 (Nat.pow 2 v.dots))

def text (v : NoteValue) : String :=
  v.head.text ++ dotsText v.dots

/-- The values that a length is tried against: none carries more than two dots. -/
def candidates : List NoteValue :=
  NoteHead.all.flatMap fun head => [⟨head, 0⟩, ⟨head, 1⟩, ⟨head, 2⟩]

/-- The value of exactly this length, if there is one with at most two dots. -/
def ofLength? (length : Rat) : Option NoteValue :=
  candidates.find? (·.length = length)

end NoteValue

end Scorebook
