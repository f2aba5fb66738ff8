import Scorebook.Book.Assembly
import Scorebook.Score.Reader
import Scorebook.Tree.OfMarkup

/-!
# Conversion

From a MuseScore document to the three texts of LilyPond source. A failure leaves nothing behind:
there is either a whole conversion or the cause for which there is none.
-/

namespace Scorebook

/-- The tree of a text, or the complaint that it is no markup. -/
def readTree (text : String) : Except ConversionError Node :=
  match Node.read text with
  | some root => .ok root
  | none => .error .malformedMarkup

/-- The score of a text. -/
def readScore (text : String) : Except ConversionError Score := do
  Score.ofDocument (← readTree text)

/-- Convert a document that is read already. -/
def convertDocument (root : Node) (settings : Settings) : Except ConversionError Conversion := do
  (← Score.ofDocument root).engrave settings

/-- Convert a document from its text. -/
def convert (text : String) (settings : Settings) : Except ConversionError Conversion := do
  convertDocument (← readTree text) settings

end Scorebook
