import Scorebook.Text.Blank
import Scorebook.Text.Numeral
import Scorebook.Tree.Node

/-!
# Lookup by name

A datum may be stated by an attribute or by child elements, and a reader asks for both at once by
their name. What there is under a name is a list of entries: the attribute, if there is one, and
then the children of that name in the order of the document. The answer tells apart whether there
are none, one or many, and a single child that has a text may be taken for that text.
-/

namespace Scorebook

/-- One of the things that go by a name. -/
inductive Entry where
  | attr (value : String)
  | child (node : Node)

namespace Entry

def text? : Entry → Option String
  | attr value => some value
  | child node => node.text?

def node? : Entry → Option Node
  | attr _ => none
  | child node => some node

end Entry

/-- The answer to a lookup. -/
inductive Lookup where
  | absent
  /-- A single text: an attribute, or the text of a single child. -/
  | value (s : String)
  | one (node : Node)
  | many (entries : List Entry)

namespace Lookup

def isAbsent : Lookup → Bool
  | absent => true
  | _ => false

/-- The text of the first thing found. -/
def text? : Lookup → Option String
  | absent => none
  | value s => some s
  | one node => node.text?
  | many entries => entries.head?.bind Entry.text?

/-- All children found; a child taken for its text is not among them. -/
def nodes : Lookup → List Node
  | one node => [node]
  | many entries => entries.filterMap Entry.node?
  | _ => []

/-- The first child found. -/
def node? : Lookup → Option Node
  | one node => some node
  | many entries => entries.findSome? Entry.node?
  | _ => none

/-- The texts of all things found that have one. -/
def texts : Lookup → List String
  | absent => []
  | value s => [s]
  | one node => node.text?.toList
  | many entries => entries.filterMap Entry.text?

/-- The answer for these entries, a single child being kept as a node. -/
def ofEntries : List Entry → Lookup
  | [] => absent
  | [.attr s] => value s
  | [.child node] => one node
  | entries => many entries

/-- A single child that has a text is taken for it. -/
def collapse : Lookup → Lookup
  | one node =>
    match node.text? with
    | some s => value s
    | none => one node
  | answer => answer

end Lookup

namespace Node

/-- What goes by a name at a node. -/
def entries (node : Node) (name : String) : List Entry :=
  (node.attribute? name).toList.map .attr ++
    (node.children.filter fun child => !child.isText && child.name = name).map .child

/-- What goes by a name, a single child kept as a node so that its attributes stay in reach. -/
def getForced (node : Node) (name : String) : Lookup :=
  .ofEntries (node.entries name)

/-- What goes by a name, a single child with a text being taken for that text. -/
def get (node : Node) (name : String) : Lookup :=
  (node.getForced name).collapse

/-! ## Shorthands -/

/-- All child elements of a name. -/
def elements (node : Node) (name : String) : List Node :=
  (node.getForced name).nodes

/-- The first child element of a name. -/
def element? (node : Node) (name : String) : Option Node :=
  (node.getForced name).node?

/-- The text under a name, cleared of the blanks around it. -/
def childText? (node : Node) (name : String) : Option String :=
  (node.get name).text?.map Text.trim

/-- The value of the text under a name. -/
def childValue? {α : Type} (read : String → Option α) (node : Node) (name : String) : Option α :=
  (node.childText? name).bind read

def childInt? : Node → String → Option Int :=
  childValue? Text.readInt32

def childNat? : Node → String → Option Nat :=
  childValue? Text.readUInt32

/-- An attribute, empty where it is missing. -/
def attributeText (node : Node) (key : String) : String :=
  (node.attribute? key).getD ""

/-- Whether an attribute is set to `true`. -/
def attributeFlag (node : Node) (key : String) : Bool :=
  node.attribute? key = some "true"

end Node

end Scorebook
