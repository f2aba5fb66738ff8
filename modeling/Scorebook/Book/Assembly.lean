import Scorebook.Book.Frame
import Scorebook.Book.Naming
import Scorebook.Score.Basic
import Scorebook.Settings

/-!
# Assembly

The groups of a score are engraved in their order. Each yields one block for the score, and its
parts are added to those that have a macro and a book. In the end three texts are composed: the
definitions of all macros, the books of all parts, and the book of the score, in which the blocks
stand one under the other.
-/

namespace Scorebook

/-- The three texts, the version they are written for, and what was left out of them. -/
structure Conversion where
  music : String
  parts : String
  score : String
  version : String
  skipped : List Skipped

namespace Conversion

/-- Everything in one file. -/
def combined (c : Conversion) : String :=
  "\\version \"" ++ c.version ++ "\"\n\n" ++ c.music ++ "\n" ++ c.score ++ "\n" ++ c.parts

end Conversion

/-- The parts engraved so far, the names they took, and what was skipped. -/
structure Assembly where
  names : Names
  parts : List EngravedPart
  skipped : List Skipped

namespace Assembly

def empty : Assembly := ⟨.empty, [], []⟩

/-! ## Parts -/

/-- Engrave a part and give it its names, without adding it to the assembled parts. -/
def engravePart (a : Assembly) (part : Part) :
    Except ConversionError (Option EngravedPart × Assembly) := do
  let (music, skipped) ← Part.engraveStaves part.id part.staves
  let (engraved, names) := part.name music a.names
  let reports := if part.staves = [] then [Skipped.staffless part.id] else skipped
  return (engraved, { a with names, skipped := a.skipped ++ reports })

/-- Engrave parts in a row and add them. -/
def addParts (a : Assembly) : List Part → Except ConversionError (List EngravedPart × Assembly)
  | [] => .ok ([], a)
  | part :: parts => do
    let (engraved, a) ← a.engravePart part
    let (rest, a) ← addParts { a with parts := a.parts ++ engraved.toList } parts
    return (engraved.toList ++ rest, a)

/-! ## Groups -/

/-- The block of a group whose parts are engraved: parts of a section stand in a bracket, which
has bar lines drawn through it if the section says so. -/
def groupBlock (group : Group) (parts : List EngravedPart) : String :=
  let blocks := Text.joinLines (parts.map EngravedPart.scoreBlock)
  match group with
  | .single _ => blocks
  | .bracketed _ barLineSpan _ =>
    "\\new " ++ (if barLineSpan then "StaffGroup" else "ChoirStaff") ++ " <<\n" ++
      Text.indent 2 blocks ++ "\n>>"

/-- Engrave a group and give its block. -/
def addGroup (a : Assembly) (group : Group) : Except ConversionError (String × Assembly) := do
  let (parts, a) ← a.addParts group.parts
  return (groupBlock group parts, a)

def addGroups (a : Assembly) : List Group → Except ConversionError (List String × Assembly)
  | [] => .ok ([], a)
  | group :: groups => do
    let (block, a) ← a.addGroup group
    let (blocks, a) ← addGroups a groups
    return (block :: blocks, a)

end Assembly

/-! ## Books -/

/-- The header fields that part and score books share. -/
def Metadata.titleFields (data : Metadata) : List (String × Option String) :=
  [("title", data.title?), ("subtitle", data.subtitle?), ("composer", data.composer?),
    ("lyricist", data.lyricist?), ("arranger", data.arranger?)]

/-- The fields that have a value. -/
def presentFields (fields : List (String × Option String)) : List (String × String) :=
  fields.filterMap fun (key, value) => value.map (key, ·)

/-- What the book of a part is made of, its staves being laid out already. -/
structure PartBook where
  outputSuffix : String
  instrument : String
  staff : String
  deriving DecidableEq, Repr

namespace PartBook

def frame (book : PartBook) (data : Metadata) (settings : Settings) : Frame where
  staves := Text.indent 4 book.staff
  paperSize := settings.partsPaperSize
  header := presentFields (data.titleFields ++ [("instrument", some book.instrument)])
  staffSize := settings.partsStaffSize

def text (book : PartBook) (data : Metadata) (settings : Settings) : String :=
  (book.frame data settings).partText book.outputSuffix

end PartBook

def EngravedPart.book (part : EngravedPart) : PartBook where
  outputSuffix := part.outputSuffix
  instrument := part.trackName
  staff := part.bookBlock

def scoreFrame (blocks : List String) (data : Metadata) (settings : Settings) : Frame where
  staves := Text.indent 6 (Text.joinLines blocks)
  paperSize := settings.scorePaperSize
  header := presentFields (data.titleFields ++ [("copyright", data.copyright?)])
  staffSize := settings.scoreStaffSize

/-- The book of the score, from the blocks of its groups. -/
def scoreBook (blocks : List String) (data : Metadata) (settings : Settings) : String :=
  (scoreFrame blocks data settings).scoreText

/-! ## The whole output -/

namespace Assembly

/-- The definitions of all macros. -/
def musicText (a : Assembly) : String :=
  String.join ((a.parts.flatMap EngravedPart.staves).map EngravedStaff.musicText)

/-- The books of all parts. -/
def partsText (a : Assembly) (data : Metadata) (settings : Settings) : String :=
  String.join (a.parts.map fun part => part.book.text data settings)

/-- Compose the three texts. -/
def finish (a : Assembly) (blocks : List String) (data : Metadata) (settings : Settings) :
    Conversion where
  music := a.musicText
  parts := a.partsText data settings
  score := scoreBook blocks data settings
  version := settings.targetVersion
  skipped := a.skipped

end Assembly

namespace Score

/-- Engrave a whole score. -/
def engrave (score : Score) (settings : Settings) : Except ConversionError Conversion := do
  let (blocks, a) ← Assembly.empty.addGroups score.groups
  return a.finish blocks score.metadata settings

end Score

end Scorebook
