import Scorebook.Engraving.Pending

/-!
# Skipped elements

What was seen but could not be written is reported with its place. A staff and a measure are named
only where there is one: a part without staves is skipped as a whole.
-/

namespace Scorebook

/-- A place in the score; measures are counted from one within their staff. -/
structure Place where
  part : String
  staff : Option String
  measure : Option Nat
  deriving DecidableEq, Repr

structure Skipped where
  elementType : String
  place : Place
  reason : String
  deriving DecidableEq, Repr

namespace Skipped

/-- The report on a decoration that no sounding event follows. -/
def unattached (place : Place) (category : Category) (mark : String) : Skipped where
  elementType := category.elementType
  place := place
  reason := "No chord or rest follows '" ++ mark ++ "' in its voice"

/-- The report on a part that has nothing to engrave. -/
def staffless (part : String) : Skipped where
  elementType := "Part"
  place := ⟨part, none, none⟩
  reason := "Part has no staves"

end Skipped

end Scorebook
