import Scorebook.Score.Order
import Scorebook.Score.Part
import Scorebook.Text.Occurrence

/-!
# Grouping of parts

The order tells which families make up a section, and the document tells the sequence of the
parts. A part belongs to the first section that shares a family, or its own id, with the id of the
part's instrument. Neighbours that belong to one section stand in one bracket, and no part changes
its place: two runs of a section that are parted by something else are two brackets.
-/

namespace Scorebook

namespace Section

/-- Whether a family of the section, or its id, occurs in the id of an instrument. -/
def claims (sec : Section) (instrumentId : String) : Bool :=
  sec.families.any (Text.mentions instrumentId) || Text.mentions instrumentId sec.id

/-- The first section that claims an instrument. -/
def find? (sections : List Section) (instrumentId : String) : Option Section :=
  sections.find? (·.claims instrumentId)

end Section

/-! ## Brackets -/

/-- A part of a section put in front of the groups that follow it: into the bracket of its
section if one comes first, else into a bracket of its own. The part in front decides whether the
bar lines of the bracket are drawn through. -/
def Section.bracket (sec : Section) (part : Part) : List Group → List Group
  | .bracketed id barLineSpan parts :: groups =>
    if id = sec.id then .bracketed sec.id sec.barLineSpan (part :: parts) :: groups
    else .bracketed sec.id sec.barLineSpan [part] :: .bracketed id barLineSpan parts :: groups
  | groups => .bracketed sec.id sec.barLineSpan [part] :: groups

/-- A part put in front of the groups that follow it. -/
def Group.cons (sections : List Section) (part : Part) (groups : List Group) : List Group :=
  match Section.find? sections part.instrumentId with
  | some sec => sec.bracket part groups
  | none => .single part :: groups

/-- The parts in their groups. -/
def Group.ofParts (sections : List Section) (parts : List Part) : List Group :=
  parts.foldr (Group.cons sections) []

theorem Group.ofParts_cons (sections : List Section) (part : Part) (parts : List Part) :
    Group.ofParts sections (part :: parts) =
      Group.cons sections part (Group.ofParts sections parts) := rfl

end Scorebook
