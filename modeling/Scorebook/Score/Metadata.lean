import Scorebook.Dictionary
import Scorebook.Text.Blank

/-!
# Metadata

A score carries tags, texts under names. A few of them are printed, each cleared of the blanks
around it, and a tag with nothing but blanks counts as absent. The title of the work comes before
the title of the movement.
-/

namespace Scorebook

structure Metadata where
  tags : Dictionary

namespace Metadata

/-- A tag that has something to show. -/
def tag? (data : Metadata) (name : String) : Option String :=
  ((data.tags.get? name).map Text.trim).filter (· ≠ "")

def title? (data : Metadata) : Option String :=
  (data.tag? "workTitle").orElse fun _ => data.tag? "movementTitle"

def subtitle? (data : Metadata) : Option String := data.tag? "subtitle"

def composer? (data : Metadata) : Option String := data.tag? "composer"

def lyricist? (data : Metadata) : Option String := data.tag? "lyricist"

def arranger? (data : Metadata) : Option String := data.tag? "arranger"

def copyright? (data : Metadata) : Option String := data.tag? "copyright"

end Metadata

end Scorebook
