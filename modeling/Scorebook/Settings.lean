/-!
# Settings

What a user may choose: paper and staff sizes of the two kinds of book, and the version of
LilyPond that the whole output is written for. A size that is not chosen is left out of the output.
-/

namespace Scorebook

structure Settings where
  scorePaperSize : Option String
  partsPaperSize : Option String
  scoreStaffSize : Option Float
  partsStaffSize : Option Float
  targetVersion : String

namespace Settings

def standard : Settings where
  scorePaperSize := none
  partsPaperSize := none
  scoreStaffSize := none
  partsStaffSize := none
  targetVersion := "2.24.0"

end Settings

end Scorebook
