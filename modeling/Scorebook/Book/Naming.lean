import Scorebook.Book.Allocator
import Scorebook.Book.EngravedPart
import Scorebook.Engraving.Staff

/-!
# Naming of staves and books

Macros and books draw their identifiers from two separate allocators, in the order of the parts and
of the staves in a part. A part with one staff asks for its own name, a part with several for its
name with the number of the staff behind it. What the music is does not enter into the names.
-/

namespace Scorebook

/-- The identifiers issued so far, of macros and of books. -/
structure Names where
  macros : Allocator
  books : Allocator
  deriving DecidableEq, Repr

namespace Names

def empty : Names := ⟨.empty, .empty⟩

end Names

namespace Part

/-- The name shown in front of the part. -/
def longName (part : Part) : String :=
  match part.instruments with
  | instrument :: _ => if instrument.longName = "" then part.trackName else instrument.longName
  | [] => part.trackName

/-- The name shown in front of the later systems. -/
def shortName (part : Part) : String :=
  (part.instruments.head?.map Instrument.shortName).getD ""

/-- Where a written middle C of the part sounds. -/
def transposition (part : Part) : Option Pitch :=
  part.instruments.head?.bind fun instrument =>
    Pitch.sounding? instrument.transposeDiatonic instrument.transposeChromatic

/-- The names that the staves of a part ask for. -/
def macroNames (part : Part) : List String :=
  if part.staves.length ≤ 1 then part.staves.map fun _ => part.trackName
  else (List.range part.staves.length).map fun i => part.trackName ++ toString (i + 1)

/-- The music of the staves, in their order, and the reports on what was left over. -/
def engraveStaves (id : String) :
    List Staff → Except ConversionError (List (List String) × List Skipped)
  | [] => .ok ([], [])
  | staff :: staves => do
    let m ← Staff.engraveMeasures ⟨id, some staff.id, none⟩ staff.measures
    let (texts, skipped) ← engraveStaves id staves
    return (m.texts :: texts, m.skipped ++ skipped)

/-- The staves of a part with their music and the names of their macros. -/
def nameStaves (part : Part) (music : List (List String)) (ids : List String) :
    List EngravedStaff :=
  (part.staves.zip (music.zip ids)).map fun (staff, measures, id) =>
    ⟨id, measures, staff.clef, part.transposition⟩

/-- Name a part whose staves have this music; a part without staves is given no names. -/
def name (part : Part) (music : List (List String)) (names : Names) :
    Option EngravedPart × Names :=
  let (ids, macros) := names.macros.allocateAll part.macroNames
  match part.nameStaves music ids with
  | [] => (none, names)
  | first :: others =>
    let (suffix, books) := names.books.allocate part.trackName
    (some ⟨part.trackName, part.longName, part.shortName, suffix, first, others⟩, ⟨macros, books⟩)

end Part

end Scorebook
