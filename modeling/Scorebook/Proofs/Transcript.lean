import Mathlib.Data.List.Forall2
import Mathlib.Data.List.Induction
import Scorebook.Proofs.Markup.ElementNames
import Scorebook.Proofs.Trimming
import Scorebook.Tree.OfMarkup

/-!
# Documents in one pass

A tree keeps the text of an element in its runs and nowhere else. A document can also be taken down
while it is read from front to back (`Transcript`), and then the text is there twice: each run
becomes a child, under the name of runs, and is put behind the text of the element as well. The two
must stay in step however text, elements and comments are mixed, and at every depth.

**One pass.** What is taken down depends on the nodes of the content only (`noteAll_eq`), so the
transcript of a document is that of its tree (`ofDocument_eq`).

**What it says.** A transcript mirrors an element (`Mirrors`) if its children do so with what is in
the element and stands for something, one by one and in their order, and if its head is right
(`IsElement`): the last value of each attribute, runs that are leaves with a trimmed text, and the
text that these come to. A run is told by its name alone, so this needs that no element goes by that
name (`mirrors_of_named`), which the names of markup see to (`Document.named_of_read`).

Main result: `ofDocument_mirrors`.
-/

namespace Scorebook

open Source Markup

/-! ## Dictionaries -/

namespace Dictionary

/-- The last value that is given under a key. -/
def lastValue? (entries : List (String × String)) (key : String) : Option String :=
  ((entries.filter (·.1 = key)).getLast?).map Prod.snd

theorem get?_ofList (entries : List (String × String)) (key : String) :
    (ofList entries).get? key = lastValue? entries key := by
  induction entries using List.reverseRecOn with
  | nil => rfl
  | append_singleton entries e ih =>
    have hconcat : ofList (entries ++ [e]) = (ofList entries).insert e.1 e.2 := by
      simp [ofList]
    rw [hconcat, get?_insert, lastValue?, List.filter_append]
    by_cases h : key = e.1
    · simp [h]
    · rw [if_neg h, ih, lastValue?]
      simp [Ne.symm h]

end Dictionary

/-! ## Transcripts -/

/-- An element or a run of text, with the text that it has. -/
structure Transcript where
  name : String
  attributes : Dictionary
  children : List Transcript
  text : Option String

namespace Transcript

/-- An element with nothing in it. -/
def start (name : String) : Transcript :=
  ⟨name, .empty, [], none⟩

def setAttribute (t : Transcript) (e : String × String) : Transcript :=
  { t with attributes := t.attributes.insert e.1 e.2 }

def run (s : String) : Transcript :=
  { start Node.textName with text := some s }

def push (t : Transcript) (child : Transcript) : Transcript :=
  { t with children := t.children ++ [child] }

/-- A run of text becomes a child and is put behind the text as well. -/
def addText (t : Transcript) (s : String) : Transcript :=
  let text := match t.text with
    | some before => before ++ s
    | none => s
  { t.push (run s) with text := some text }

mutual

/-- What is taken down when this content comes next. -/
def note (t : Transcript) : Content → Transcript
  | .element name attributes children =>
    t.push (noteAll (attributes.foldl setAttribute (start name)) children)
  | .text s => if Text.trim s = "" then t else t.addText (Text.trim s)
  | .comment _ => t
  | .instruction _ _ => t

def noteAll (t : Transcript) : List Content → Transcript
  | [] => t
  | c :: cs => noteAll (t.note c) cs

end

def ofDocument (d : Document) : Transcript :=
  noteAll (d.attributes.foldl setAttribute (start d.name)) d.children

end Transcript

/-! ## Transcripts of trees -/

namespace Node

mutual

def transcript : Node → Transcript
  | .text s => .run s
  | .element name attributes children =>
    ⟨name, attributes, transcripts children, (Node.element name attributes children).text?⟩

def transcripts : List Node → List Transcript
  | [] => []
  | node :: nodes => node.transcript :: transcripts nodes

end

theorem transcripts_eq_map (nodes : List Node) : transcripts nodes = nodes.map transcript := by
  induction nodes with
  | nil => rfl
  | cons node nodes ih => rw [transcripts, ih, List.map_cons]

end Node

namespace Transcript

/-- What is taken down when this node comes next. -/
def put (t : Transcript) : Node → Transcript
  | .text s => t.addText s
  | node => t.push node.transcript

/-- The text with these runs behind it. -/
def continued (text : Option String) (runs : List String) : Option String :=
  if runs = [] then text else some (text.getD "" ++ String.join runs)

theorem continued_cons (text : Option String) (s : String) (runs : List String) :
    continued (some (text.getD "" ++ s)) runs = continued text (s :: runs) := by
  by_cases h : runs = []
  · simp [continued, h]
  · simp [continued, h, String.append_assoc]

theorem text_addText (t : Transcript) (s : String) :
    (t.addText s).text = some (t.text.getD "" ++ s) := by
  unfold addText
  cases t.text with
  | none => simp
  | some before => rfl

/-- **A row of nodes** is put behind the children, and its runs behind the text. -/
theorem foldl_put (t : Transcript) (nodes : List Node) :
    nodes.foldl put t = ⟨t.name, t.attributes, t.children ++ nodes.map Node.transcript,
      continued t.text (nodes.filterMap Node.run?)⟩ := by
  induction nodes generalizing t with
  | nil =>
    cases t
    simp [continued]
  | cons node nodes ih =>
    rw [List.foldl_cons, ih]
    cases node with
    | text s =>
      have hchildren : (t.addText s).children = t.children ++ [run s] := rfl
      simp only [put, text_addText, hchildren, List.map_cons, Node.transcript,
        List.append_assoc, List.singleton_append, List.filterMap_cons, Node.run?, continued_cons]
      rfl
    | element name attributes children =>
      rw [List.filterMap_cons_none rfl]
      simp [put, push]

theorem foldl_setAttribute (name : String) (attributes : List (String × String)) :
    attributes.foldl setAttribute (start name) = ⟨name, .ofList attributes, [], none⟩ := by
  induction attributes using List.reverseRecOn with
  | nil => rfl
  | append_singleton attributes e ih =>
    rw [List.foldl_append, ih]
    simp [setAttribute, Dictionary.ofList]

/-- An element is taken down as its node says. -/
theorem foldl_put_start (name : String) (attributes : List (String × String))
    (nodes : List Node) :
    nodes.foldl put (attributes.foldl setAttribute (start name)) =
      (Node.element name (.ofList attributes) nodes).transcript := by
  rw [foldl_setAttribute, foldl_put, Node.transcript, Node.transcripts_eq_map]
  simp [continued, Node.text?, Node.runs, Node.children]

mutual

/-- **What is taken down depends on the nodes of the content only.** -/
theorem note_eq (t : Transcript) (c : Content) : t.note c = (Node.ofContent c).foldl put t := by
  cases c with
  | element name attributes children =>
    rw [note, noteAll_eq, foldl_put_start, Node.ofContent]
    rfl
  | text s =>
    rw [note, Node.ofContent]
    split
    · rfl
    · rfl
  | comment s => rfl
  | instruction target s => rfl

theorem noteAll_eq (t : Transcript) (cs : List Content) :
    t.noteAll cs = (Node.ofContents cs).foldl put t := by
  cases cs with
  | nil => rfl
  | cons c cs => rw [noteAll, noteAll_eq _ cs, note_eq t c, Node.ofContents, List.foldl_append]

end

/-- The transcript of a document is that of its tree. -/
theorem ofDocument_eq (d : Document) : ofDocument d = (Node.ofDocument d).transcript := by
  rw [ofDocument, noteAll_eq, foldl_put_start, Node.ofDocument]

/-! ## What a transcript says -/

def isText (t : Transcript) : Bool :=
  t.name = Node.textName

/-- A leaf with a text that is trimmed and not empty. -/
structure IsRun (t : Transcript) : Prop where
  attributes_eq : t.attributes = .empty
  children_eq : t.children = []
  text : ∃ s, t.text = some s ∧ s ≠ "" ∧ Stops Text.isBlank s.toList ∧
    Stops Text.isBlank s.toList.reverse

/-- The transcript is headed by an element with this name and these attributes, and its text is that
of the children that are runs. -/
structure IsElement (name : String) (attributes : List (String × String)) (t : Transcript) :
    Prop where
  name_eq : t.name = name
  isText_eq : t.isText = false
  get?_eq : ∀ key, t.attributes.get? key = Dictionary.lastValue? attributes key
  run : ∀ child ∈ t.children, child.isText = true → child.IsRun
  text_eq_none_iff : t.text = none ↔ ∀ child ∈ t.children, child.isText = false
  text_eq : ∀ s, t.text = some s →
    s = String.join ((t.children.filter isText).filterMap Transcript.text)

/-- Whether content stands for a node: elements do, and text that is not blank. -/
def isKept : Content → Bool
  | .element _ _ _ => true
  | .text s => s.toList.any fun c => !Text.isBlank c
  | .comment _ => false
  | .instruction _ _ => false

/-- The transcript says what the content does, at every depth. -/
inductive Mirrors : Content → Transcript → Prop
  | run {s t : String} : Text.Trims s t → t ≠ "" →
      Mirrors (.text s) ⟨Node.textName, .empty, [], some t⟩
  | element {name : String} {attributes : List (String × String)} {children : List Content}
      {t : Transcript} : IsElement name attributes t →
      List.Forall₂ Mirrors (children.filter isKept) t.children →
      Mirrors (.element name attributes children) t

end Transcript

/-! ## Nodes of content -/

namespace Node

/-- Runs are trimmed and not empty, and elements are not called like them. -/
def IsPlain : Node → Prop
  | .text s => s ≠ "" ∧ Stops Text.isBlank s.toList ∧ Stops Text.isBlank s.toList.reverse
  | .element name _ _ => name ≠ textName

theorem ne_textName_of_beginsName {name : String} (h : beginsName name.toList = true) :
    name ≠ textName := by
  rintro rfl
  revert h
  decide

theorem isPlain_of_mem_ofContent {c : Content} (h : c.Named) {node : Node}
    (hnode : node ∈ ofContent c) : node.IsPlain := by
  cases h with
  | element hname _ =>
    rw [ofContent, List.mem_singleton] at hnode
    rw [hnode]
    exact ne_textName_of_beginsName hname
  | @text s =>
    rw [ofContent] at hnode
    split at hnode
    · cases hnode
    · next hs =>
      rw [List.mem_singleton] at hnode
      have htrims := Text.trims_trim s
      rw [hnode]
      exact ⟨hs, htrims.head, htrims.last⟩
  | comment | instruction => cases hnode

theorem isPlain_of_mem_ofContents {cs : List Content} (h : ∀ c ∈ cs, c.Named) {node : Node}
    (hnode : node ∈ ofContents cs) : node.IsPlain := by
  induction cs with
  | nil => cases hnode
  | cons c cs ih =>
    obtain ⟨hc, hcs⟩ := List.forall_mem_cons.1 h
    rw [ofContents, List.mem_append] at hnode
    rcases hnode with hnode | hnode
    · exact isPlain_of_mem_ofContent hc hnode
    · exact ih hcs hnode

end Node

namespace Transcript

theorem isText_transcript {node : Node} (h : node.IsPlain) :
    node.transcript.isText = node.run?.isSome := by
  cases node with
  | text s => simp [Node.transcript, run, start, isText, Node.run?]
  | element name attributes children =>
    have hname : name ≠ Node.textName := h
    simp [Node.transcript, isText, Node.run?, hname]

theorem isRun_transcript {node : Node} (h : node.IsPlain) (ht : node.transcript.isText = true) :
    node.transcript.IsRun := by
  cases node with
  | text s => exact ⟨rfl, rfl, s, rfl, h⟩
  | element name attributes children =>
    rw [isText_transcript h] at ht
    cases ht

/-- The texts of the children that are runs are the runs of the nodes. -/
theorem texts_transcript {nodes : List Node} (h : ∀ node ∈ nodes, node.IsPlain) :
    ((nodes.map Node.transcript).filter isText).filterMap Transcript.text =
      nodes.filterMap Node.run? := by
  induction nodes with
  | nil => rfl
  | cons node nodes ih =>
    obtain ⟨hnode, hnodes⟩ := List.forall_mem_cons.1 h
    have htext := isText_transcript hnode
    rw [List.map_cons, List.filter_cons, htext]
    cases node with
    | text s =>
      simp only [Node.run?, Option.isSome_some, if_true, List.filterMap_cons, ih hnodes]
      rfl
    | element name attributes children =>
      rw [List.filterMap_cons_none rfl, if_neg (by simp [Node.run?]), ih hnodes]

theorem isElement_transcript {name : String} {nodes : List Node}
    (hname : name ≠ Node.textName) (h : ∀ node ∈ nodes, node.IsPlain)
    (attributes : List (String × String)) :
    IsElement name attributes (Node.element name (.ofList attributes) nodes).transcript := by
  have htexts := texts_transcript h
  rw [Node.transcript, Node.transcripts_eq_map]
  refine ⟨rfl, by simpa [isText] using hname, Dictionary.get?_ofList attributes, ?_, ?_, ?_⟩
  · intro child hchild ht
    obtain ⟨node, hnode, rfl⟩ := List.mem_map.1 hchild
    exact isRun_transcript (h node hnode) ht
  · show (if nodes.filterMap Node.run? = [] then none else _) = none ↔ _
    have hnone : nodes.filterMap Node.run? = [] ↔
        ∀ child ∈ nodes.map Node.transcript, child.isText = false := by
      rw [List.filterMap_eq_nil_iff, List.forall_mem_map]
      refine forall₂_congr fun node hnode => ?_
      rw [isText_transcript (h node hnode), Option.isSome_eq_false_iff, Option.isNone_iff_eq_none]
    rw [← hnone]
    by_cases hruns : nodes.filterMap Node.run? = []
    · simp [hruns]
    · simp [hruns]
  · intro s hs
    have htext : (if nodes.filterMap Node.run? = [] then none
        else some (String.join (nodes.filterMap Node.run?))) = some s := hs
    split_ifs at htext
    rw [htexts]
    exact (Option.some.inj htext).symm

mutual

/-- **Content** is mirrored by its node, if it stands for one. -/
theorem mirrors_ofContent (c : Content) (h : c.Named) :
    List.Forall₂ Mirrors ([c].filter isKept) ((Node.ofContent c).map Node.transcript) := by
  cases c with
  | element name attributes children =>
    obtain ⟨hname, hchildren⟩ : beginsName name.toList = true ∧ ∀ c ∈ children, c.Named := by
      cases h with
      | element hname hchildren => exact ⟨hname, hchildren⟩
    have hplain : ∀ node ∈ Node.ofContents children, node.IsPlain :=
      fun _ hnode => Node.isPlain_of_mem_ofContents hchildren hnode
    have hhead := isElement_transcript (Node.ne_textName_of_beginsName hname) hplain attributes
    have hrow := mirrors_ofContents children hchildren
    rw [← Node.transcripts_eq_map] at hrow
    exact .cons (.element hhead hrow) .nil
  | text s =>
    have htrims := Text.trims_trim s
    rw [Node.ofContent]
    by_cases hs : Text.trim s = ""
    · have hkept : isKept (.text s) = false := by
        simpa [isKept] using htrims.eq_empty_iff.1 hs
      simp [hs, hkept]
    · have hkept : isKept (.text s) = true := by
        have hsome := mt htrims.eq_empty_iff.2 hs
        simpa [isKept] using hsome
      rw [if_neg hs, List.filter_cons, if_pos hkept]
      exact .cons (.run htrims hs) .nil
  | comment s => exact .nil
  | instruction target s => exact .nil

/-- **A row of content** is mirrored by its nodes, one by one. -/
theorem mirrors_ofContents (cs : List Content) (h : ∀ c ∈ cs, c.Named) :
    List.Forall₂ Mirrors (cs.filter isKept) ((Node.ofContents cs).map Node.transcript) := by
  cases cs with
  | nil => exact .nil
  | cons c cs =>
    obtain ⟨hc, hcs⟩ := List.forall_mem_cons.1 h
    rw [← List.singleton_append, List.filter_append, List.singleton_append, Node.ofContents,
      List.map_append]
    exact List.rel_append (mirrors_ofContent c hc) (mirrors_ofContents cs hcs)

end

/-- **Every document with names of markup** is mirrored by its tree, wherever it comes from. -/
theorem mirrors_of_named {d : Document} (h : d.Named) :
    Mirrors (.element d.name d.attributes d.children) (Node.ofDocument d).transcript := by
  have hroot := mirrors_ofContent (.element d.name d.attributes d.children)
    (.element h.name h.children)
  cases hroot with
  | cons hroot _ => exact hroot

/-- **The tree of a document mirrors it**, whether it is taken down in one pass or not. -/
theorem ofDocument_mirrors {s : String} {d : Document} (h : Document.read s = some d) :
    ofDocument d = (Node.ofDocument d).transcript ∧
      Mirrors (.element d.name d.attributes d.children) (Node.ofDocument d).transcript :=
  ⟨ofDocument_eq d, mirrors_of_named (Document.named_of_read h)⟩

/-- Runs around an element, a comment and an instruction, and two attributes with one base. -/
theorem ofDocument_mixed :
    ∃ d, Document.read ("<m:a xmlns:m=\"u\" xmlns:n=\"v\" m:k=\"1\" n:k=\"2\"> one <b/>" ++
        "<!-- no --><![CDATA[ <two>]]><?p q?>\n</m:a>") = some d ∧
      (ofDocument d).attributes.get? "k" = some "2" ∧
      (ofDocument d).children.map (fun child => (child.name, child.text)) =
        [("#text", some "one"), ("b", none), ("#text", some "<two>")] ∧
      (ofDocument d).text = some "one<two>" ∧
      Mirrors (.element d.name d.attributes d.children) (ofDocument d) := by
  have hread : ((Document.read
      ("<m:a xmlns:m=\"u\" xmlns:n=\"v\" m:k=\"1\" n:k=\"2\"> one <b/>" ++
        "<!-- no --><![CDATA[ <two>]]><?p q?>\n</m:a>")).map fun d =>
      ((ofDocument d).attributes.get? "k",
        (ofDocument d).children.map (fun child => (child.name, child.text)),
        (ofDocument d).text)) =
      some (some "2", [("#text", some "one"), ("b", none), ("#text", some "<two>")],
        some "one<two>") := by
    decide +kernel
  obtain ⟨d, hd, hfacts⟩ := Option.map_eq_some_iff.1 hread
  simp only [Prod.mk.injEq] at hfacts
  obtain ⟨hattribute, hchildren, htext⟩ := hfacts
  obtain ⟨hsame, hmirrors⟩ := ofDocument_mirrors hd
  rw [← hsame] at hmirrors
  exact ⟨d, hd, hattribute, hchildren, htext, hmirrors⟩

end Transcript

end Scorebook
