/-!
# Orders

The order of a score names the instruments it provides for and the sections they fall into. It
does not say where the parts stand: a section only lists the families of its instruments.
-/

namespace Scorebook

structure Family where
  id : String
  name : String
  deriving DecidableEq, Repr

structure OrderInstrument where
  id : String
  families : List Family
  deriving DecidableEq, Repr

structure Section where
  id : String
  brackets : Bool
  barLineSpan : Bool
  thinBrackets : Bool
  families : List String
  /-- Groups of instruments that have no place of their own. -/
  unsorted : List (Option String)
  deriving DecidableEq, Repr

structure Order where
  instruments : List OrderInstrument
  sections : List Section
  deriving DecidableEq, Repr

namespace Order

def empty : Order := ⟨[], []⟩

end Order

end Scorebook
