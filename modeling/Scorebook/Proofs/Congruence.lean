import Mathlib.Data.List.Forall2
import Scorebook.Proofs.Lookup
import Scorebook.Score.Reader

/-!
# Trees that read alike

Most of the order in a document means nothing. A reader asks for children by their names, so that
only the children of one name stand in an order, and a run of text is read as part of the text of
its element, wherever it stands. Two trees are `Alike` if this much agrees at every node: what the
node says of itself, and for each name the children of that name, one by one.

Four kinds of node are read more loosely still, each at its own place in the document.

- A voice is the row of its events: these agree in their order, whatever stands between them.
- A measure, a staff of the score and the score itself are asked for a few names only, and children
  of any other name may come and go.

Readers go down one level at a time, so the proof goes up from the leaves, reader by reader, and no
induction over trees is needed.

Main result: `Score.ofNode_eq_of_alike`.
-/

namespace Scorebook

/-! ## The relation -/

/-- The names of the children of a voice that stand for events. -/
def Event.names : List String :=
  ["KeySig", "TimeSig", "Tempo", "Rest", "Chord", "Clef", "BarLine", "Fermata",
    "PlayTechAnnotation", "Spanner", "Dynamic"]

namespace Node

/-- The children of a voice that stand for events, in their order. -/
def events (voice : Node) : List Node :=
  voice.children.filter (·.name ∈ Event.names)

/-- What the nodes say of themselves agrees. -/
structure SameHead (a b : Node) : Prop where
  name_eq : a.name = b.name
  attribute?_eq : ∀ key, a.attribute? key = b.attribute? key
  text?_eq : a.text? = b.text?

/-- The heads agree, and the children of each name are alike, one by one. -/
inductive Alike : Node → Node → Prop
  | intro {a b : Node} (head : SameHead a b)
      (named : ∀ name, name ≠ textName → List.Forall₂ Alike (a.named name) (b.named name)) :
      Alike a b

/-- The events are alike in their order. -/
structure AlikeVoice (a b : Node) : Prop where
  head : SameHead a b
  events : List.Forall₂ Alike a.events b.events

structure AlikeMeasure (a b : Node) : Prop where
  head : SameHead a b
  irregular : List.Forall₂ Alike (a.named "irregular") (b.named "irregular")
  voices : List.Forall₂ AlikeVoice (a.named "voice") (b.named "voice")

structure AlikeStaff (a b : Node) : Prop where
  head : SameHead a b
  measures : List.Forall₂ AlikeMeasure (a.named "Measure") (b.named "Measure")

structure AlikeScore (a b : Node) : Prop where
  head : SameHead a b
  order : List.Forall₂ Alike (a.named "Order") (b.named "Order")
  parts : List.Forall₂ Alike (a.named "Part") (b.named "Part")
  staves : List.Forall₂ AlikeStaff (a.named "Staff") (b.named "Staff")
  tags : List.Forall₂ Alike (a.named "metaTag") (b.named "metaTag")

end Node

/-! ## Rows of alike nodes -/

section Rows

variable {α β : Type} {R : α → α → Prop} {f : α → β} {as bs : List α}

theorem map_eq_of_forall₂ (hf : ∀ a b, R a b → f a = f b) (h : List.Forall₂ R as bs) :
    as.map f = bs.map f := by
  rw [← List.forall₂_eq_eq_eq]
  exact List.rel_map (fun a b hab => hf a b hab) h

theorem filterMap_eq_of_forall₂ {f : α → Option β} (hf : ∀ a b, R a b → f a = f b)
    (h : List.Forall₂ R as bs) : as.filterMap f = bs.filterMap f := by
  have hmap := congrArg (List.filterMap id) (map_eq_of_forall₂ hf h)
  rwa [List.filterMap_map, List.filterMap_map, Function.id_comp] at hmap

theorem mapM_eq_of_forall₂ {ε : Type} {f : α → Except ε β} (hf : ∀ a b, R a b → f a = f b)
    (h : List.Forall₂ R as bs) : as.mapM f = bs.mapM f := by
  induction h with
  | nil => rfl
  | cons hab _ ih => rw [List.mapM_cons, List.mapM_cons, hf _ _ hab, ih]

theorem map_head?_eq_of_forall₂ (hf : ∀ a b, R a b → f a = f b) (h : List.Forall₂ R as bs) :
    as.head?.map f = bs.head?.map f := by
  rw [← List.head?_map, ← List.head?_map, map_eq_of_forall₂ hf h]

end Rows

/-! ## What is read of alike nodes -/

namespace Node.Alike

variable {a b : Node} {β : Type}

theorem head (h : a.Alike b) : a.SameHead b := by
  cases h with
  | intro head _ => exact head

theorem attributeText_eq (h : a.Alike b) (key : String) :
    a.attributeText key = b.attributeText key := by
  rw [attributeText, attributeText, h.head.attribute?_eq]

theorem attributeFlag_eq (h : a.Alike b) (key : String) :
    a.attributeFlag key = b.attributeFlag key := by
  rw [attributeFlag, attributeFlag, h.head.attribute?_eq]

theorem elements (h : a.Alike b) (name : String) :
    List.Forall₂ Alike (a.elements name) (b.elements name) := by
  by_cases hname : name = textName
  · rw [hname, elements_textName, elements_textName]
    exact .nil
  · rw [elements_eq_named a hname, elements_eq_named b hname]
    cases h with
    | intro _ named => exact named name hname

theorem map_element?_eq (h : a.Alike b) {f : Node → β} (hf : ∀ c d, Alike c d → f c = f d)
    (name : String) : (a.element? name).map f = (b.element? name).map f := by
  rw [element?_eq_head?, element?_eq_head?]
  exact map_head?_eq_of_forall₂ hf (h.elements name)

theorem isSome_element?_eq (h : a.Alike b) (name : String) :
    (a.element? name).isSome = (b.element? name).isSome := by
  have hunit := h.map_element?_eq (f := fun _ => ()) (fun _ _ _ => rfl) name
  rw [← Option.isSome_map (f := fun _ => ()), hunit, Option.isSome_map]

theorem bind_element?_eq (h : a.Alike b) {f : Node → Option β}
    (hf : ∀ c d, Alike c d → f c = f d) (name : String) :
    (a.element? name).bind f = (b.element? name).bind f := by
  have hmap := congrArg (Option.bind · id) (h.map_element?_eq hf name)
  rwa [Option.bind_map, Option.bind_map, Function.id_comp] at hmap

theorem childText?_eq (h : a.Alike b) (name : String) : a.childText? name = b.childText? name := by
  have htext := h.bind_element?_eq (f := text?) (fun _ _ hcd => hcd.head.text?_eq) name
  rw [childText?, childText?, text?_get, text?_get, h.head.attribute?_eq, htext]

theorem childValue?_eq (h : a.Alike b) (read : String → Option β) (name : String) :
    a.childValue? read name = b.childValue? read name := by
  rw [childValue?, childValue?, h.childText?_eq]

theorem childInt?_eq (h : a.Alike b) (name : String) : a.childInt? name = b.childInt? name :=
  h.childValue?_eq _ name

theorem childNat?_eq (h : a.Alike b) (name : String) : a.childNat? name = b.childNat? name :=
  h.childValue?_eq _ name

theorem map_elements_eq (h : a.Alike b) {f : Node → β} (hf : ∀ c d, Alike c d → f c = f d)
    (name : String) : (a.elements name).map f = (b.elements name).map f :=
  map_eq_of_forall₂ hf (h.elements name)

theorem filterMap_elements_eq (h : a.Alike b) {f : Node → Option β}
    (hf : ∀ c d, Alike c d → f c = f d) (name : String) :
    (a.elements name).filterMap f = (b.elements name).filterMap f :=
  filterMap_eq_of_forall₂ hf (h.elements name)

/-! ## Permutation -/

/-- Every tree is like itself, by induction from its leaves. -/
theorem refl (a : Node) : a.Alike a := by
  refine .intro ⟨rfl, fun _ => rfl, rfl⟩ fun name _ => List.forall₂_same.2 fun child hchild => ?_
  have hmem : child ∈ a.children := (List.mem_filter.1 hchild).1
  have : sizeOf child < sizeOf a := by
    cases a with
    | text => cases hmem
    | element tag attributes nodes =>
      have hnodes := List.sizeOf_lt_of_mem (show child ∈ nodes from hmem)
      simp only [element.sizeOf_spec]
      omega
  exact refl child
termination_by sizeOf a

/-- Neighbours of different names may change places. -/
theorem swap (name : String) (attributes : Dictionary) (before after : List Node) {c d : Node}
    (h : c.name ≠ d.name) :
    (element name attributes (before ++ c :: d :: after)).Alike
      (element name attributes (before ++ d :: c :: after)) := by
  have hnamed (key : String) : (element name attributes (before ++ c :: d :: after)).named key =
      (element name attributes (before ++ d :: c :: after)).named key := by
    simp only [named, children, List.filter_append, List.filter_cons]
    by_cases hc : c.name = key
    · have hd : d.name ≠ key := fun hd => h (hc.trans hd.symm)
      simp [hc, hd]
    · simp [hc]
  have hruns : (element name attributes (before ++ c :: d :: after)).runs =
      (element name attributes (before ++ d :: c :: after)).runs := by
    simp only [runs, children, List.filterMap_append, List.filterMap_cons]
    cases c with
    | element => rfl
    | text s =>
      cases d with
      | element => rfl
      | text t => exact absurd rfl h
  refine .intro ⟨rfl, fun _ => rfl, ?_⟩ fun key _ => ?_
  · simp only [text?, hruns]
  · rw [hnamed]
    exact List.forall₂_same.2 fun child _ => refl child

end Node.Alike

/-! ## Events -/

open Node (Alike)

variable {a b : Node}

theorem Spanner.ofNode_congr (h : a.Alike b) : ofNode a = ofNode b := by
  have hpayload (kind : String) : (a.element? kind).bind (·.childText? "subtype") =
      (b.element? kind).bind (·.childText? "subtype") :=
    h.bind_element?_eq (fun _ _ hbody => hbody.childText?_eq "subtype") kind
  simp only [ofNode, h.attributeText_eq, h.isSome_element?_eq, hpayload]

theorem Note.ofNode?_congr (h : a.Alike b) : ofNode? a = ofNode? b := by
  have hties : ((a.elements "Spanner").filter (·.attribute? "type" = some "Tie")).map
      Spanner.ofNode =
      ((b.elements "Spanner").filter (·.attribute? "type" = some "Tie")).map Spanner.ofNode := by
    refine map_eq_of_forall₂ (fun _ _ hcd => Spanner.ofNode_congr hcd) ?_
    apply List.rel_filter _ (h.elements "Spanner")
    intro c d hcd
    simp only [hcd.head.attribute?_eq]
  simp only [ofNode?, h.childInt?_eq, h.isSome_element?_eq, hties]

theorem Chord.ofNode_congr (h : a.Alike b) : ofNode a = ofNode b := by
  have hsubtype (c d : Node) (hcd : c.Alike d) : c.childText? "subtype" = d.childText? "subtype" :=
    hcd.childText?_eq "subtype"
  have htremolo : ((a.element? "TremoloSingleChord").orElse fun _ => a.element? "Tremolo").bind
      (·.childText? "subtype") =
      ((b.element? "TremoloSingleChord").orElse fun _ => b.element? "Tremolo").bind
        (·.childText? "subtype") := by
    have hsingle := h.bind_element?_eq hsubtype "TremoloSingleChord"
    have hother := h.bind_element?_eq hsubtype "Tremolo"
    have hsome := h.isSome_element?_eq "TremoloSingleChord"
    cases ha : a.element? "TremoloSingleChord" <;> cases hb : b.element? "TremoloSingleChord" <;>
      simp_all
  simp only [ofNode, h.childText?_eq, h.childNat?_eq, htremolo, List.filterMap_append,
    h.filterMap_elements_eq (fun _ _ => Note.ofNode?_congr),
    h.filterMap_elements_eq hsubtype, h.map_elements_eq fun _ _ => Spanner.ofNode_congr]

theorem Rest.ofNode_congr (h : a.Alike b) : ofNode a = ofNode b := by
  simp only [ofNode, h.childText?_eq, h.childNat?_eq, h.childInt?_eq]

theorem Key.ofNode_congr (h : a.Alike b) : ofNode a = ofNode b := by
  simp only [ofNode, h.childInt?_eq]

theorem TimeSignature.ofNode_congr (h : a.Alike b) : ofNode a = ofNode b := by
  simp only [ofNode, h.childNat?_eq]

/-- **Alike children of a voice are one event**, or none. -/
theorem Event.ofNode?_congr (h : a.Alike b) : ofNode? a = ofNode? b := by
  simp only [ofNode?, h.head.name_eq, Key.ofNode_congr h, TimeSignature.ofNode_congr h,
    h.childValue?_eq, Rest.ofNode_congr h, Chord.ofNode_congr h, h.childText?_eq,
    Spanner.ofNode_congr h]

/-! ## Measures and staves -/

/-- A child that goes by another name is no event. -/
theorem Event.ofNode?_of_name_not_mem {node : Node} (h : node.name ∉ names) :
    ofNode? node = none := by
  unfold ofNode?
  split <;> simp_all [names]

/-- A voice reads the row of its events, and nothing else. -/
theorem Voice.ofNode_eq (node : Node) : ofNode node = node.events.filterMap Event.ofNode? := by
  rw [ofNode, Node.events, List.filterMap_filter, List.filterMap_filter]
  refine List.filterMap_congr ?_
  intro child _
  by_cases hname : child.name ∈ Event.names
  · have htext : child.isText = false := by
      refine decide_eq_false fun heq => ?_
      rw [heq] at hname
      exact absurd hname (by decide)
    simp [hname, htext]
  · simp [hname, Event.ofNode?_of_name_not_mem hname]

theorem Voice.ofNode_congr (h : a.AlikeVoice b) : ofNode a = ofNode b := by
  rw [ofNode_eq, ofNode_eq]
  exact filterMap_eq_of_forall₂ (fun _ _ hcd => Event.ofNode?_congr hcd) h.events

theorem Measure.ofNode_congr (h : a.AlikeMeasure b) : ofNode a = ofNode b := by
  have hvoices : (a.elements "voice").map Voice.ofNode = (b.elements "voice").map Voice.ofNode := by
    rw [a.elements_eq_named (by decide), b.elements_eq_named (by decide)]
    exact map_eq_of_forall₂ (fun _ _ hcd => Voice.ofNode_congr hcd) h.voices
  have hflag : (a.element? "irregular").map Node.text? =
      (b.element? "irregular").map Node.text? := by
    rw [a.element?_eq_head?_named (by decide), b.element?_eq_head?_named (by decide)]
    exact map_head?_eq_of_forall₂ (fun _ _ hcd => hcd.head.text?_eq) h.irregular
  have hread (node : Node) : (ofNode node).irregular =
      ((node.element? "irregular").map Node.text?).any (· ≠ some "0") := by
    unfold ofNode
    cases node.element? "irregular" <;> rfl
  have hirregular : (ofNode a).irregular = (ofNode b).irregular := by rw [hread, hread, hflag]
  simp only [ofNode, h.head.attribute?_eq, hvoices]
  exact congrArg (Measure.mk · _ _) hirregular

theorem StaffMusic.ofNode_congr (h : a.AlikeStaff b) : ofNode a = ofNode b := by
  have hmeasures : (a.elements "Measure").map Measure.ofNode =
      (b.elements "Measure").map Measure.ofNode := by
    rw [a.elements_eq_named (by decide), b.elements_eq_named (by decide)]
    exact map_eq_of_forall₂ (fun _ _ hcd => Measure.ofNode_congr hcd) h.measures
  simp only [ofNode, Node.attributeText, h.head.attribute?_eq, hmeasures]

theorem StaffMusic.ofScore_congr (h : a.AlikeScore b) : ofScore a = ofScore b := by
  rw [ofScore, ofScore, a.elements_eq_named (by decide), b.elements_eq_named (by decide)]
  exact map_eq_of_forall₂ (fun _ _ hcd => ofNode_congr hcd) h.staves

/-! ## Parts -/

theorem Channel.ofNode_congr (h : a.Alike b) : ofNode a = ofNode b := by
  have hprograms := h.filterMap_elements_eq (f := (·.attribute? "value"))
    (fun _ _ hcd => hcd.head.attribute?_eq "value") "program"
  simp only [ofNode, h.childText?_eq, h.childNat?_eq, hprograms]

theorem Instrument.clefOfNode?_congr (h : a.Alike b) : clefOfNode? a = clefOfNode? b := by
  simp only [clefOfNode?, h.head.attribute?_eq, h.head.text?_eq]

theorem Instrument.ofNode_congr (h : a.Alike b) : ofNode a = ofNode b := by
  simp only [ofNode, h.head.attribute?_eq, h.childText?_eq, h.childInt?_eq,
    h.filterMap_elements_eq fun _ _ => clefOfNode?_congr,
    h.map_elements_eq fun _ _ => Channel.ofNode_congr]

namespace Part

theorem staffClef_congr (h : a.Alike b) (instruments : List Instrument) (number : Nat) :
    staffClef instruments number a = staffClef instruments number b := by
  simp only [staffClef, h.childText?_eq]

theorem readStaves_congr {as bs : List Node} (h : List.Forall₂ Alike as bs) (part : String)
    (instruments : List Instrument) (music : List StaffMusic) (number : Nat) :
    readStaves part instruments music number as = readStaves part instruments music number bs := by
  induction h generalizing number with
  | nil => rfl
  | cons hab _ ih =>
    simp only [readStaves, hab.attributeText_eq, staffClef_congr hab, ih]

theorem trackNameOfNode_congr (h : a.Alike b) (instruments : List Instrument) :
    trackNameOfNode a instruments = trackNameOfNode b instruments := by
  simp only [trackNameOfNode, h.childText?_eq, h.attributeText_eq]

theorem ofNode_congr (h : a.Alike b) (music : List StaffMusic) :
    ofNode music a = ofNode music b := by
  simp only [ofNode, h.attributeText_eq, h.map_elements_eq fun _ _ => Instrument.ofNode_congr,
    readStaves_congr (h.elements "Staff"), trackNameOfNode_congr h]

end Part

/-! ## Order and metadata -/

namespace Order

theorem familyOfNode_congr (h : a.Alike b) : familyOfNode a = familyOfNode b := by
  simp only [familyOfNode, h.attributeText_eq, h.head.text?_eq]

theorem instrumentOfNode_congr (h : a.Alike b) : instrumentOfNode a = instrumentOfNode b := by
  simp only [instrumentOfNode, h.attributeText_eq,
    h.map_elements_eq fun _ _ => familyOfNode_congr]

theorem sectionOfNode_congr (h : a.Alike b) : sectionOfNode a = sectionOfNode b := by
  have hfamilies := h.filterMap_elements_eq (f := Node.text?)
    (fun _ _ hcd => hcd.head.text?_eq) "family"
  have hunsorted := h.map_elements_eq (f := (·.attribute? "group"))
    (fun _ _ hcd => hcd.head.attribute?_eq "group") "unsorted"
  simp only [sectionOfNode, h.attributeText_eq, h.attributeFlag_eq, hfamilies, hunsorted]

theorem ofNode_congr (h : a.Alike b) : ofNode a = ofNode b := by
  simp only [ofNode, h.map_elements_eq fun _ _ => instrumentOfNode_congr,
    h.map_elements_eq fun _ _ => sectionOfNode_congr]

end Order

theorem Metadata.tagOfNode?_congr (h : a.Alike b) : tagOfNode? a = tagOfNode? b := by
  simp only [tagOfNode?, h.head.attribute?_eq, h.head.text?_eq]

theorem Metadata.ofNode_congr (h : a.AlikeScore b) : ofNode a = ofNode b := by
  rw [ofNode, ofNode, a.elements_eq_named (by decide), b.elements_eq_named (by decide),
    filterMap_eq_of_forall₂ (fun _ _ hcd => tagOfNode?_congr hcd) h.tags]

/-! ## Scores -/

namespace Score

theorem orderOfNode_congr (h : a.AlikeScore b) : orderOfNode a = orderOfNode b := by
  have horder : (a.element? "Order").map Order.ofNode = (b.element? "Order").map Order.ofNode := by
    rw [a.element?_eq_head?_named (by decide), b.element?_eq_head?_named (by decide)]
    exact map_head?_eq_of_forall₂ (fun _ _ hcd => Order.ofNode_congr hcd) h.order
  unfold orderOfNode
  cases ha : a.element? "Order" <;> cases hb : b.element? "Order" <;> simp_all

theorem partsOfNode_congr (h : a.AlikeScore b) : partsOfNode a = partsOfNode b := by
  rw [partsOfNode, partsOfNode, StaffMusic.ofScore_congr h, a.elements_eq_named (by decide),
    b.elements_eq_named (by decide)]
  exact mapM_eq_of_forall₂ (fun _ _ hcd => Part.ofNode_congr hcd _) h.parts

/-- **Trees that are alike are read as one score**, or fail for one cause. -/
theorem ofNode_eq_of_alike (h : a.AlikeScore b) : ofNode a = ofNode b := by
  rw [ofNode, ofNode, orderOfNode_congr h, partsOfNode_congr h, Metadata.ofNode_congr h]

/-- An element that holds a text. -/
def leaf (name text : String) : Node :=
  .element name .empty [.text text]

def flat : Node :=
  .element "KeySig" .empty [leaf "concertKey" "-2"]

def quarter (children : List Node) : Node :=
  .element "Chord" .empty children

def pitched : Node :=
  .element "Note" .empty [leaf "pitch" "70"]

/-- A flute of one measure, with everything at its usual place. -/
def ordered : Node :=
  .element "Score" .empty
    [.element "Part" (.ofList [("id", "1")])
      [leaf "trackName" "Flute", .element "Staff" (.ofList [("id", "1")]) []],
     leaf "metaTag" "none",
     .element "Staff" (.ofList [("id", "1")])
      [.element "Measure" .empty
        [.element "voice" .empty [flat, quarter [leaf "durationType" "quarter", pitched]]]]]

/-- The same flute: every pair of different names has changed places, and there is a layout, a
frame, a number and a text that no reader asks for. -/
def shuffled : Node :=
  .element "Score" .empty
    [leaf "layoutMode" "page",
     .element "Staff" (.ofList [("id", "1")])
      [.element "VBox" .empty [flat],
       .element "Measure" .empty
        [leaf "eid" "7", .element "voice" .empty
          [flat, leaf "StaffText" "dolce", quarter [pitched, leaf "durationType" "quarter"]]]],
     leaf "metaTag" "none",
     .element "Part" (.ofList [("id", "1")])
      [.element "Staff" (.ofList [("id", "1")]) [], leaf "trackName" "Flute"]]

theorem alikeScore_shuffled : ordered.AlikeScore shuffled := by
  have hhead (name : String) (attributes : Dictionary) (as bs : List Node)
      (h : (Node.element name attributes as).text? = (Node.element name attributes bs).text?) :
      (Node.element name attributes as).SameHead (.element name attributes bs) :=
    ⟨rfl, fun _ => rfl, h⟩
  have hevents : Node.AlikeVoice
      (.element "voice" .empty [flat, quarter [leaf "durationType" "quarter", pitched]])
      (.element "voice" .empty
        [flat, leaf "StaffText" "dolce", quarter [pitched, leaf "durationType" "quarter"]]) :=
    ⟨hhead _ _ _ _ rfl, .cons (.refl _) (.cons (.swap _ _ [] [] (by decide)) .nil)⟩
  refine ⟨hhead _ _ _ _ rfl, .nil, ?_, ?_, .cons (.refl _) .nil⟩
  · exact .cons (.swap _ _ [] [] (by decide)) .nil
  · exact .cons ⟨hhead _ _ _ _ rfl, .cons ⟨hhead _ _ _ _ rfl, .nil, .cons hevents .nil⟩ .nil⟩ .nil

theorem ofNode_shuffled : ordered.AlikeScore shuffled ∧ ofNode ordered = ofNode shuffled ∧
    (ofNode shuffled).map (fun score => score.groups.map fun group => group.parts.map (·.trackName))
      = .ok [["Flute"]] :=
  ⟨alikeScore_shuffled, ofNode_eq_of_alike alikeScore_shuffled, rfl⟩

end Score

end Scorebook
