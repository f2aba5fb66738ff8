import Scorebook.Engraving.Directive
import Scorebook.Pitch.Transposition
import Scorebook.Text.Lines
import Scorebook.Text.Quoted

/-!
# Engraved parts

The music of a staff is defined once, as a macro, and referred to by the name of that macro both in
the score and in the book of its part. An engraved part keeps each staff together with its macro,
and the definition and the two references are three readings of that one value, so they cannot
disagree. It has at least one staff: a part without any is not engraved.
-/

namespace Scorebook

/-- A staff whose music has a name. -/
structure EngravedStaff where
  id : String
  /-- One text for each measure. -/
  measures : List String
  clef : String
  transposition : Option Pitch
  deriving DecidableEq, Repr

/-- The definition of a macro. -/
def musicMacro (id : String) (measures : List String) : String :=
  id ++ " = \x7b\n  " ++ " |\n  ".intercalate measures ++ " \\bar \"|.\"\n\x7d\n"

namespace EngravedStaff

def musicText (staff : EngravedStaff) : String :=
  musicMacro staff.id staff.measures

/-- The reference to the music, transposed where the instrument transposes. -/
def reference (staff : EngravedStaff) : String :=
  match staff.transposition with
  | some pitch => "\\transpose " ++ pitch.text ++ " c' \\" ++ staff.id
  | none => "\\" ++ staff.id

/-- Clef and reference on a line each, after a margin. -/
def contents (margin : String) (staff : EngravedStaff) : String :=
  margin ++ clefDirective staff.clef ++ "\n" ++ margin ++ staff.reference ++ "\n"

/-- The staff as one of several. -/
def innerBlock (staff : EngravedStaff) : String :=
  "  \\new Staff \x7b\n" ++ staff.contents "    " ++ "  \x7d"

/-- The staff alone and without a name. -/
def bareBlock (staff : EngravedStaff) : String :=
  "\\new Staff \x7b\n" ++ staff.contents "  " ++ "\x7d"

end EngravedStaff

structure EngravedPart where
  trackName : String
  longName : String
  shortName : String
  /-- The suffix of the file of the part's book. -/
  outputSuffix : String
  first : EngravedStaff
  others : List EngravedStaff
  deriving DecidableEq, Repr

namespace EngravedPart

def staves (part : EngravedPart) : List EngravedStaff :=
  part.first :: part.others

/-- The two lines that name the instrument in a context. -/
def nameLines (part : EngravedPart) (context : String) : String :=
  "  \\set " ++ context ++ ".instrumentName = " ++ Text.quote part.longName ++
    "\n  \\set " ++ context ++ ".shortInstrumentName = " ++ Text.quote part.shortName ++ "\n"

/-- Several staves under one brace. -/
def pianoBlock (part : EngravedPart) : String :=
  "\\new PianoStaff <<\n" ++ part.nameLines "PianoStaff" ++
    Text.joinLines (part.staves.map EngravedStaff.innerBlock) ++ "\n>>"

/-- What stands for the part in the score. -/
def scoreBlock (part : EngravedPart) : String :=
  if part.others = [] then
    "\\new Staff \x7b\n" ++ part.nameLines "Staff" ++ part.first.contents "  " ++ "\x7d"
  else part.pianoBlock

/-- What stands in the book of the part; a single staff is not named there. -/
def bookBlock (part : EngravedPart) : String :=
  if part.others = [] then part.first.bareBlock else part.pianoBlock

end EngravedPart

end Scorebook
