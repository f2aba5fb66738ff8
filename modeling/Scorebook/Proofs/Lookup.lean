import Mathlib.Data.List.Basic
import Scorebook.Tree.Lookup

/-!
# What a lookup finds

Lookups answer in several shapes, according to how much goes by a name. Read as nodes, every
answer comes down to one list: the children of that name in the order of the document (`named`).

So does every other reading, if the attribute of that name is put in front of them. The shape of an
answer tells nothing besides this list, and keeping a single child as a node makes a difference in
one case only, for a child that has a text (`IsSoleText`): taken for that text, it is no node.

Main result: `Node.get_tells_listed`.
-/

namespace Scorebook

namespace Lookup

theorem nodes_ofEntries (entries : List Entry) :
    (ofEntries entries).nodes = entries.filterMap Entry.node? := by
  match entries with
  | [] => rfl
  | [.attr _] => rfl
  | [.child _] => rfl
  | .attr _ :: _ :: _ => rfl
  | .child _ :: _ :: _ => rfl

theorem node?_ofEntries (entries : List Entry) :
    (ofEntries entries).node? = (entries.filterMap Entry.node?).head? := by
  rw [List.head?_filterMap]
  match entries with
  | [] => rfl
  | [.attr _] => rfl
  | [.child _] => rfl
  | .attr _ :: _ :: _ => rfl
  | .child _ :: _ :: _ => rfl

theorem isAbsent_ofEntries (entries : List Entry) :
    (ofEntries entries).isAbsent = entries.isEmpty := by
  match entries with
  | [] => rfl
  | [.attr _] => rfl
  | [.child _] => rfl
  | .attr _ :: _ :: _ => rfl
  | .child _ :: _ :: _ => rfl

theorem texts_ofEntries (entries : List Entry) :
    (ofEntries entries).texts = entries.filterMap Entry.text? := by
  match entries with
  | [] => rfl
  | [.attr _] => rfl
  | [.child node] => cases h : node.text? <;> simp [ofEntries, texts, Entry.text?, h]
  | .attr _ :: _ :: _ => rfl
  | .child _ :: _ :: _ => rfl

theorem text?_ofEntries (entries : List Entry) :
    (ofEntries entries).text? = entries.head?.bind Entry.text? := by
  match entries with
  | [] => rfl
  | [.attr _] => rfl
  | [.child _] => rfl
  | .attr _ :: _ :: _ => rfl
  | .child _ :: _ :: _ => rfl

/-- A child that is taken for its text had that text before. -/
theorem text?_collapse (answer : Lookup) : answer.collapse.text? = answer.text? := by
  cases answer with
  | one node => cases h : node.text? <;> simp [collapse, text?, h]
  | _ => rfl

theorem texts_collapse (answer : Lookup) : answer.collapse.texts = answer.texts := by
  cases answer with
  | one node => cases h : node.text? <;> simp [collapse, texts, h]
  | _ => rfl

theorem isAbsent_collapse (answer : Lookup) : answer.collapse.isAbsent = answer.isAbsent := by
  cases answer with
  | one node => cases h : node.text? <;> simp [collapse, isAbsent, h]
  | _ => rfl

/-! ## Taking a child for its text -/

/-- There is nothing but one child, and it has a text. -/
def IsSoleText (entries : List Entry) : Prop :=
  ∃ child s, entries = [.child child] ∧ child.text? = some s

theorem collapse_ofEntries_of_not_isSoleText {entries : List Entry} (h : ¬IsSoleText entries) :
    (ofEntries entries).collapse = ofEntries entries := by
  match entries with
  | [] => rfl
  | [.attr _] => rfl
  | [.child node] =>
    have htext : node.text? = none :=
      Option.eq_none_iff_forall_ne_some.2 fun s hs => h ⟨node, s, rfl, hs⟩
    rw [ofEntries, collapse, htext]
  | .attr _ :: _ :: _ => rfl
  | .child _ :: _ :: _ => rfl

/-- What an answer says about a list of entries, and what the answer says that keeps a single child
as a node. -/
structure Tells (entries : List Entry) (answer forced : Lookup) : Prop where
  isAbsent_eq : answer.isAbsent = entries.isEmpty ∧ forced.isAbsent = entries.isEmpty
  texts_eq : answer.texts = entries.filterMap Entry.text? ∧
    forced.texts = entries.filterMap Entry.text?
  text?_eq : answer.text? = entries.head?.bind Entry.text? ∧
    forced.text? = entries.head?.bind Entry.text?
  nodes_eq : forced.nodes = entries.filterMap Entry.node?
  node?_eq : forced.node? = (entries.filterMap Entry.node?).head?
  nodes_eq_iff : answer.nodes = forced.nodes ↔ ¬IsSoleText entries
  node?_eq_iff : answer.node? = forced.node? ↔ ¬IsSoleText entries
  of_isSoleText : IsSoleText entries → answer.nodes = [] ∧ answer.node? = none

theorem tells_ofEntries (entries : List Entry) :
    Tells entries (ofEntries entries).collapse (ofEntries entries) := by
  have hsole (h : IsSoleText entries) : (ofEntries entries).collapse.nodes = [] ∧
      (ofEntries entries).collapse.node? = none ∧ (ofEntries entries).nodes ≠ [] ∧
      (ofEntries entries).node? ≠ none := by
    obtain ⟨child, s, rfl, hs⟩ := h
    simp [ofEntries, collapse, nodes, node?, hs]
  refine ⟨⟨?_, isAbsent_ofEntries _⟩, ⟨?_, texts_ofEntries _⟩, ⟨?_, text?_ofEntries _⟩,
    nodes_ofEntries _, node?_ofEntries _, ⟨fun heq h => ?_, fun h => ?_⟩,
    ⟨fun heq h => ?_, fun h => ?_⟩, fun h => ⟨(hsole h).1, (hsole h).2.1⟩⟩
  · rw [isAbsent_collapse, isAbsent_ofEntries]
  · rw [texts_collapse, texts_ofEntries]
  · rw [text?_collapse, text?_ofEntries]
  · obtain ⟨hnone, -, hsome, -⟩ := hsole h
    exact hsome (heq ▸ hnone)
  · rw [collapse_ofEntries_of_not_isSoleText h]
  · obtain ⟨-, hnone, -, hsome⟩ := hsole h
    exact hsome (heq ▸ hnone)
  · rw [collapse_ofEntries_of_not_isSoleText h]

end Lookup

namespace Node

/-- The children of a name, in their order. -/
def named (node : Node) (name : String) : List Node :=
  node.children.filter (·.name = name)

theorem filterMap_node?_entries (node : Node) (name : String) :
    (node.entries name).filterMap Entry.node? =
      node.children.filter fun child => !child.isText && child.name = name := by
  have hattr : ((node.attribute? name).toList.map Entry.attr).filterMap Entry.node? = [] := by
    cases node.attribute? name <;> rfl
  have hchild (nodes : List Node) : (nodes.map Entry.child).filterMap Entry.node? = nodes := by
    rw [List.filterMap_map]
    exact List.filterMap_some
  rw [entries, List.filterMap_append, hattr, hchild, List.nil_append]

/-- A name other than that of runs of text finds the elements of that name. -/
theorem elements_eq_named (node : Node) {name : String} (h : name ≠ textName) :
    node.elements name = node.named name := by
  rw [elements, getForced, Lookup.nodes_ofEntries, filterMap_node?_entries, named]
  refine List.filter_congr ?_
  intro child _
  by_cases hname : child.name = name <;> simp [isText, hname, h]

/-- Runs of text are never found, and nor is an element that goes by their name. -/
theorem elements_textName (node : Node) : node.elements textName = [] := by
  rw [elements, getForced, Lookup.nodes_ofEntries, filterMap_node?_entries]
  refine List.filter_eq_nil_iff.2 ?_
  intro child _
  by_cases hname : child.name = textName <;> simp [isText, hname]

theorem element?_eq_head? (node : Node) (name : String) :
    node.element? name = (node.elements name).head? := by
  rw [elements, element?, getForced, Lookup.node?_ofEntries, Lookup.nodes_ofEntries]

theorem element?_eq_head?_named (node : Node) {name : String} (h : name ≠ textName) :
    node.element? name = (node.named name).head? := by
  rw [← elements_eq_named node h, element?_eq_head?]

/-- A text is looked for in the attribute first and then in the first child. -/
theorem text?_get (node : Node) (name : String) :
    (node.get name).text? = (node.attribute? name).or ((node.element? name).bind text?) := by
  rw [get, Lookup.text?_collapse, element?, getForced, Lookup.text?_ofEntries,
    Lookup.node?_ofEntries, filterMap_node?_entries, entries]
  cases node.attribute? name with
  | some value => rfl
  | none => cases node.children.filter fun child => !child.isText && child.name = name <;> rfl

/-! ## One list behind every lookup -/

/-- The children of a name that are no runs of text, in their order. -/
def matching (node : Node) (name : String) : List Node :=
  (node.named name).filter (!·.isText)

/-- The attribute of a name, if there is one, and the children behind it. -/
def listed (node : Node) (name : String) : List Entry :=
  (node.attribute? name).toList.map .attr ++ (node.matching name).map .child

theorem entries_eq_listed (node : Node) (name : String) : node.entries name = node.listed name := by
  rw [listed, matching, named, List.filter_filter, entries]

theorem filterMap_node?_listed (node : Node) (name : String) :
    (node.listed name).filterMap Entry.node? = node.matching name := by
  rw [← entries_eq_listed, filterMap_node?_entries, matching, named, List.filter_filter]

/-- **Every lookup comes down to one list**, whatever shape its answer has. -/
theorem get_tells_listed (node : Node) (name : String) :
    Lookup.Tells (node.listed name) (node.get name) (node.getForced name) ∧
      node.elements name = node.matching name ∧
      node.element? name = (node.matching name).head? ∧
      node.childText? name = ((node.listed name).head?.bind Entry.text?).map Text.trim ∧
      ∀ {α : Type} (read : String → Option α), node.childValue? read name =
        (((node.listed name).head?.bind Entry.text?).map Text.trim).bind read := by
  have htells : Lookup.Tells (node.listed name) (node.get name) (node.getForced name) := by
    rw [← entries_eq_listed]
    exact Lookup.tells_ofEntries _
  refine ⟨htells, ?_, ?_, ?_, fun read => ?_⟩
  · rw [elements, htells.nodes_eq, filterMap_node?_listed]
  · rw [element?, htells.node?_eq, filterMap_node?_listed]
  · rw [childText?, htells.text?_eq.1]
  · rw [childValue?, childText?, htells.text?_eq.1]

end Node

end Scorebook
