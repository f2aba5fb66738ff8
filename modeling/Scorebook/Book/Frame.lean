import Scorebook.Decimal.Shortest
import Scorebook.Text.Lines
import Scorebook.Text.Quoted

/-!
# Books

A book wraps staves that are laid out already. The book of a part tells the suffix of its file and
always has a header. The book of the score has a header only where there is something to say in
it, with an empty line in front. A paper size and a staff size are told where they are set.
-/

namespace Scorebook

/-! ## Staff sizes -/

/-- Whether a finite double has no fraction. -/
def Binary64.isWhole (x : Binary64) : Bool :=
  x.value.den = 1

/-- A staff size: a whole one with all its digits, any other with the fewest digits that read
back, and never with an exponent. -/
def staffSizeText (size : Float) : String :=
  if size.isNaN then "NaN"
  else
    let x := Binary64.ofFloat size
    let magnitude :=
      if size.isInf then "inf"
      else if x.isWhole then toString x.value.num
      else x.shortest.plainText
    if Binary64.isNegative size.toBits then "-" ++ magnitude else magnitude

/-! ## Frames -/

/-- What a book is made of. -/
structure Frame where
  staves : String
  paperSize : Option String
  /-- Header fields and their values, as they are to be read. -/
  header : List (String × String)
  staffSize : Option Float

namespace Frame

def paperBlock (f : Frame) : String :=
  match f.paperSize with
  | none => ""
  | some size => "  \\paper \x7b\n    #(set-paper-size \"" ++ size ++ "\")\n  \x7d\n"

def headerLine (field : String × String) : String :=
  "    " ++ field.1 ++ " = " ++ Text.quote field.2 ++ "\n"

def headerBlock (f : Frame) : String :=
  "  \\header \x7b\n" ++ String.join (f.header.map headerLine) ++ "  \x7d\n"

def layoutBlock (f : Frame) : String :=
  match f.staffSize with
  | none => ""
  | some size =>
    "    \\layout \x7b\n      #(layout-set-staff-size " ++ staffSizeText size ++ ")\n    \x7d\n"

/-- The book of a part, with the suffix of its file. -/
def partText (f : Frame) (outputSuffix : String) : String :=
  "\\book \x7b\n" ++ f.paperBlock ++ "  \\bookOutputSuffix \"" ++ outputSuffix ++ "\"\n" ++
    f.headerBlock ++ "  \\score \x7b\n" ++ f.staves ++ "\n" ++ f.layoutBlock ++ "  \x7d\n\x7d\n"

/-- The book of the score. -/
def scoreText (f : Frame) : String :=
  "\\book \x7b\n" ++ f.paperBlock ++ (if f.header = [] then "" else "\n" ++ f.headerBlock) ++
    "  \\score \x7b\n    <<\n" ++ f.staves ++ "\n    >>\n" ++ f.layoutBlock ++ "  \x7d\n\x7d\n"

end Frame

end Scorebook
