import Scorebook.Markup.Document
import Scorebook.Text.Blank
import Scorebook.Text.Lines
import Scorebook.Text.Occurrence
import Scorebook.Tree.Node

/-!
# Trees of documents

Of the markup of a document the tree keeps the elements and the runs of text. A run of text is
cleared of the blanks at its ends, and one that holds nothing else is layout and dropped, as are
comments and instructions. Of two attributes with one name the last counts.

A document type says nothing that the tree could hold, and the markup has no place for it, so the
lines that begin with one are taken out of the text first. A text that mentions none is read as it
stands. Which parser reads the markup then is open (`readBy`).
-/

namespace Scorebook.Node

/-! ## From markup -/

mutual

/-- The node that content stands for, if it stands for one. -/
def ofContent : Markup.Content → List Node
  | .element name attrs children =>
    [.element name (.ofList attrs) (ofContents children)]
  | .text s => if Text.trim s = "" then [] else [.text (Text.trim s)]
  | .comment _ => []
  | .instruction _ _ => []

/-- The nodes of a row of content, in its order. -/
def ofContents : List Markup.Content → List Node
  | [] => []
  | c :: cs => ofContent c ++ ofContents cs

end

/-- The tree of a document. -/
def ofDocument (d : Markup.Document) : Node :=
  .element d.name (.ofList d.attributes) (ofContents d.children)

/-! ## From text -/

def documentTypeMark : String := "<!DOCTYPE"

/-- Whether a line begins with a document type, blanks aside. -/
def isDocumentTypeLine (line : String) : Bool :=
  documentTypeMark.toList.isPrefixOf (Text.trimStart line).toList

/-- The text without the lines that begin with a document type. -/
def withoutDocumentType (s : String) : String :=
  if Text.mentions s documentTypeMark then
    Text.joinLines ((Text.lines s).filter fun line => !isDocumentTypeLine line)
  else s

/-- The tree of a text, if the parser takes it for well-formed markup. -/
def readBy (parse : String → Option Markup.Document) (s : String) : Option Node :=
  (parse (withoutDocumentType s)).map ofDocument

/-- The tree of a text, if it is well-formed markup. -/
def read (s : String) : Option Node :=
  readBy Markup.Document.read s

end Scorebook.Node
