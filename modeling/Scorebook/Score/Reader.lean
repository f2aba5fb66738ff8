import Scorebook.Error
import Scorebook.Decimal.Reader
import Scorebook.Score.Basic
import Scorebook.Score.Grouping
import Scorebook.Tree.Lookup

/-!
# Reading a score

A score is read from the tree of its document. What a document may state once or several times is
read as a list, in the order of the document; what is missing has its usual value; and what is not
known is passed over. Only three things cannot be mended: a root of another kind, a document
without a score, and a part that refers to a staff which the score does not hold.
-/

namespace Scorebook

/-! ## Events -/

namespace Spanner

/-- A spanner starts where it has a `next` and ends where it has a `prev`. -/
def ofNode (node : Node) : Spanner :=
  let kind := node.attributeText "type"
  { kind
    starts := (node.element? "next").isSome
    ends := (node.element? "prev").isSome
    payload := (node.element? kind).bind (·.childText? "subtype") }

end Spanner

namespace Note

/-- A note without a pitch is none. -/
def ofNode? (node : Node) : Option Note :=
  (node.childInt? "pitch").map fun pitch =>
    { pitch
      accidentalShown := (node.element? "Accidental").isSome
      ties := ((node.elements "Spanner").filter (·.attribute? "type" = some "Tie")).map
        Spanner.ofNode }

end Note

namespace Chord

def ofNode (node : Node) : Chord where
  durationType := (node.childText? "durationType").getD ""
  dots := (node.childNat? "dots").getD 0
  notes := (node.elements "Note").filterMap Note.ofNode?
  tremolo :=
    ((node.element? "TremoloSingleChord").orElse fun _ => node.element? "Tremolo").bind
      (·.childText? "subtype")
  articulations :=
    (node.elements "Articulation" ++ node.elements "Ornament").filterMap (·.childText? "subtype")
  spanners := (node.elements "Spanner").map Spanner.ofNode

end Chord

namespace Rest

def ofNode (node : Node) : Rest where
  durationType := (node.childText? "durationType").getD ""
  duration := node.childText? "duration"
  dots := (node.childNat? "dots").getD 0
  visible := (node.childInt? "visible").getD 1 ≠ 0

end Rest

namespace Key

/-- The key in concert pitch, or else as an accidental count. -/
def ofNode (node : Node) : Key where
  fifths :=
    ((node.childInt? "concertKey").orElse fun _ => node.childInt? "accidental").getD 0

end Key

namespace TimeSignature

def ofNode (node : Node) : TimeSignature where
  beats := (node.childNat? "sigN").getD 4
  beatUnit := (node.childNat? "sigD").getD 4

end TimeSignature

namespace Event

/-- The event that a child of a voice stands for, if it stands for one. -/
def ofNode? (node : Node) : Option Event :=
  match node.name with
  | "KeySig" => some (.key (.ofNode node))
  | "TimeSig" => some (.time (.ofNode node))
  | "Tempo" => some (.tempo (node.childValue? Decimal.readFloat "tempo"))
  | "Rest" => some (.rest (.ofNode node))
  | "Chord" => some (.chord (.ofNode node))
  | "Clef" =>
    some (.clef (((node.childText? "concertClefType").orElse fun _ =>
      node.childText? "subtype").getD "G"))
  | "BarLine" => some (.barLine ((node.childText? "subtype").getD ""))
  | "Fermata" => some (.fermata ((node.childText? "subtype").getD ""))
  | "PlayTechAnnotation" =>
    some (.technique (node.childText? "playTechType") (node.childText? "text"))
  | "Spanner" => some (.spanner (.ofNode node))
  | "Dynamic" => some (.dynamic ((node.childText? "subtype").getD ""))
  | _ => none

end Event

/-! ## Measures and staves -/

namespace Voice

def ofNode (node : Node) : Voice :=
  (node.children.filter fun child => !child.isText).filterMap Event.ofNode?

end Voice

namespace Measure

/-- A length that cannot be read counts as not given. -/
def ofNode (node : Node) : Measure where
  irregular := match node.element? "irregular" with
    | some flag => flag.text? ≠ some "0"
    | none => false
  length := (node.attribute? "len").bind fun len => Text.readFraction (Text.trim len)
  voices := (node.elements "voice").map Voice.ofNode

end Measure

/-- The music of a staff, whichever part it belongs to. -/
structure StaffMusic where
  id : String
  measures : List Measure

namespace StaffMusic

def ofNode (node : Node) : StaffMusic where
  id := node.attributeText "id"
  measures := (node.elements "Measure").map Measure.ofNode

/-- The music of all staves of a score. -/
def ofScore (score : Node) : List StaffMusic :=
  (score.elements "Staff").map ofNode

end StaffMusic

/-! ## Parts -/

namespace Channel

def ofNode (node : Node) : Channel where
  programs := (node.elements "program").filterMap (·.attribute? "value")
  synthesizer := node.childText? "synti"
  midiPort := node.childNat? "midiPort"
  midiChannel := node.childNat? "midiChannel"

end Channel

namespace Instrument

/-- A clef of an instrument with the number of its staff, the first where none can be read. -/
def clefOfNode? (node : Node) : Option (Nat × String) :=
  let staff := (node.attribute? "staff").bind fun s => Text.readUInt64 (Text.trim s)
  node.text?.map fun clef => (staff.getD 1, Text.trim clef)

def ofNode (node : Node) : Instrument where
  id := node.attribute? "id"
  longName := (node.childText? "longName").getD ""
  shortName := (node.childText? "shortName").getD ""
  trackName := (node.childText? "trackName").getD ""
  instrumentId := (node.childText? "instrumentId").getD ""
  transposeDiatonic := (node.childInt? "transposeDiatonic").getD 0
  transposeChromatic := (node.childInt? "transposeChromatic").getD 0
  clefs := (node.elements "clef").filterMap clefOfNode?
  channels := (node.elements "Channel").map Channel.ofNode

end Instrument

namespace Part

/-- The clef of a staff of a part: its own, that of concert pitch, or that of the instrument. -/
def staffClef (instruments : List Instrument) (staffNumber : Nat) (node : Node) : String :=
  (((node.childText? "defaultClef").orElse fun _ =>
    node.childText? "defaultConcertClef").orElse fun _ =>
    instruments.head?.bind (·.clef? staffNumber)).getD "G"

/-- The staves that a part refers to, numbered from the given one on, with their music. -/
def readStaves (part : String) (instruments : List Instrument) (music : List StaffMusic) :
    Nat → List Node → Except ConversionError (List Staff)
  | _, [] => .ok []
  | number, node :: nodes =>
    let id := node.attributeText "id"
    match music.find? (·.id = id) with
    | none => .error (.missingStaff part id)
    | some found => do
      let staves ← readStaves part instruments music (number + 1) nodes
      return ⟨id, staffClef instruments number node, found.measures⟩ :: staves

/-- The name of a part: its own, that of its first instrument, or its id. -/
def trackNameOfNode (node : Node) (instruments : List Instrument) : String :=
  let own := (node.childText? "trackName").filter (· ≠ "")
  let long := (instruments.head?.map Instrument.longName).filter (· ≠ "")
  (own.orElse fun _ => long).getD (node.attributeText "id")

def ofNode (music : List StaffMusic) (node : Node) : Except ConversionError Part := do
  let id := node.attributeText "id"
  let instruments := (node.elements "Instrument").map Instrument.ofNode
  let staves ← readStaves id instruments music 1 (node.elements "Staff")
  return { id, trackName := trackNameOfNode node instruments, instruments, staves }

end Part

/-! ## Order and metadata -/

namespace Order

def familyOfNode (node : Node) : Family where
  id := node.attributeText "id"
  name := node.text?.getD ""

def instrumentOfNode (node : Node) : OrderInstrument where
  id := node.attributeText "id"
  families := (node.elements "family").map familyOfNode

def sectionOfNode (node : Node) : Section where
  id := node.attributeText "id"
  brackets := node.attributeFlag "brackets"
  barLineSpan := node.attributeFlag "barLineSpan"
  thinBrackets := node.attributeFlag "thinBrackets"
  families := (node.elements "family").filterMap Node.text?
  unsorted := (node.elements "unsorted").map (·.attribute? "group")

def ofNode (node : Node) : Order where
  instruments := (node.elements "instrument").map instrumentOfNode
  sections := (node.elements "section").map sectionOfNode

end Order

namespace Metadata

/-- A tag under its name. -/
def tagOfNode? (node : Node) : Option (String × String) :=
  (node.attribute? "name").map fun name => (name, Text.trim (node.text?.getD ""))

/-- The tags of a score, the last of each name. -/
def ofNode (score : Node) : Metadata where
  tags := .ofList ((score.elements "metaTag").filterMap tagOfNode?)

end Metadata

/-! ## Scores -/

namespace Score

/-- The order of a score, empty where it states none. -/
def orderOfNode (score : Node) : Order :=
  match score.element? "Order" with
  | some node => .ofNode node
  | none => .empty

/-- The parts of a score, in the order of the document. -/
def partsOfNode (score : Node) : Except ConversionError (List Part) :=
  (score.elements "Part").mapM (Part.ofNode (StaffMusic.ofScore score))

/-- Read a score from its element. -/
def ofNode (score : Node) : Except ConversionError Score := do
  let order := orderOfNode score
  let parts ← partsOfNode score
  return { order, groups := Group.ofParts order.sections parts, metadata := .ofNode score }

/-- Read the score of a document. -/
def ofDocument (root : Node) : Except ConversionError Score :=
  if root.name ≠ "museScore" then .error (.unsupportedRoot root.name)
  else match root.element? "Score" with
    | none => .error (.missingElement "Score")
    | some score => ofNode score

end Score

end Scorebook
