import Scorebook.Dictionary

/-!
# Document trees

A document is sensitive to order: the sequence of the children of a voice is the music. So a node
keeps its elements and its runs of text in one list, as they stand in the document. The text of an
element is what its own runs of text come to when they are put together; an element without any
run of text has no text, which is not the same as an empty one.
-/

namespace Scorebook

inductive Node where
  | text (s : String)
  | element (name : String) (attributes : Dictionary) (children : List Node)
  deriving Inhabited

namespace Node

/-- The name that runs of text go by. -/
def textName : String := "#text"

def name : Node → String
  | text _ => textName
  | element name _ _ => name

def attributes : Node → Dictionary
  | text _ => .empty
  | element _ attributes _ => attributes

def attribute? (node : Node) (key : String) : Option String :=
  node.attributes.get? key

def children : Node → List Node
  | text _ => []
  | element _ _ children => children

/-- Whether the node goes by the name of a run of text, as an element may too. -/
def isText (node : Node) : Bool :=
  node.name = textName

/-- The text of a node that is a run of text. -/
def run? : Node → Option String
  | text s => some s
  | element _ _ _ => none

/-- The runs of text among the children. -/
def runs (node : Node) : List String :=
  node.children.filterMap run?

/-- The text of a node. -/
def text? : Node → Option String
  | text s => some s
  | node => if node.runs = [] then none else some (String.join node.runs)

end Node

end Scorebook
