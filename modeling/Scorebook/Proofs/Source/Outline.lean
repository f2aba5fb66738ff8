import Scorebook.Proofs.Source.Assignment

/-!
# Outlines of books

A book is a block in braces with a command in front of it, and so are the things in it. The outline
of a text lists the blocks in the order in which they are opened, and the strings that are assigned,
each with the blocks that are open around it.

**Insertions.** Some texts are put into a book as they are, and what is in them is not the concern
of the book. They are listed too, but they are passed over: reading goes on behind them where it was
in front of them (`outline`).
-/

namespace Scorebook.Source

/-! ## Reading -/

inductive Item where
  /-- A block is opened; its own command is the last one. -/
  | block (path : List String)
  | field (path : List String) (key value : String)
  /-- A text is put in, in a string or outside of strings. -/
  | insertion (path : List String) (quoted : Bool) (s : String)
  deriving DecidableEq, Repr

/-- Where the next character stands. -/
structure Position where
  /-- The commands of the open blocks, the outermost first. -/
  path : List String
  /-- The command that was read last, if no other token came behind it. -/
  command? : Option String
  mode : Mode
  cursor : Cursor
  deriving DecidableEq, Repr

namespace Position

/-- Outside of all strings, with nothing before it in the block. -/
def inside (path : List String) : Position :=
  ⟨path, none, .plain, .plain .nothing⟩

/-- Read a token. -/
def token (p : Position) : Token → List Item × Position
  | .command name => ([], { p with command? := some name })
  | .literal => ([], { p with command? := none })
  | .mark c =>
    if c = '\x7b' then
      let path := p.path ++ [p.command?.getD ""]
      ([.block path], { p with path, command? := none })
    else if c = '\x7d' then ([], { p with path := p.path.dropLast, command? := none })
    else ([], { p with command? := none })

/-- Read tokens in a row. -/
def tokens : Position → List Token → List Item × Position
  | p, [] => ([], p)
  | p, t :: ts => ((p.token t).1 ++ ((p.token t).2.tokens ts).1, ((p.token t).2.tokens ts).2)

/-- Read a character, both for the tokens and for the assignment that are complete by it. -/
def next (p : Position) (c : Char) : List Item × Position :=
  let (items, q) := p.tokens (step p.mode c).1
  let (field?, cursor) := p.cursor.step c
  (items ++ field?.toList.map fun (key, value) => .field q.path key value,
    { q with mode := (step p.mode c).2, cursor })

/-- Read characters in a row. -/
def read : Position → List Char → List Item × Position
  | p, [] => ([], p)
  | p, c :: cs => ((p.next c).1 ++ ((p.next c).2.read cs).1, ((p.next c).2.read cs).2)

end Position

/-- A part of a text: source, or a text that was put in. -/
inductive Chunk where
  | source (s : String)
  | inserted (s : String)

def Chunk.text : Chunk → String
  | source s => s
  | inserted s => s

def Position.chunk (p : Position) : Chunk → List Item × Position
  | .source s => p.read s.toList
  | .inserted s => ([.insertion p.path (p.mode = .literal) s], p)

/-- What is found from a place on. -/
def outline : Position → List Chunk → List Item × Position
  | p, [] => ([], p)
  | p, c :: cs => ((p.chunk c).1 ++ (outline (p.chunk c).2 cs).1, (outline (p.chunk c).2 cs).2)

/-- The text has this outline, once what was put in is told apart, and all its blocks are closed. -/
def HasOutline (text : String) (items : List Item) : Prop :=
  ∃ chunks, text = String.join (chunks.map Chunk.text) ∧
    outline (.inside []) chunks = (items, .inside [])

example : outline (.inside [])
    [.source "\\a \x7b \\b \x7b c = \"\\\"\" ", .inserted "\x7d", .source " \x7d \x7d\n"] =
      ([.block ["a"], .block ["a", "b"], .field ["a", "b"] "c" "\"",
        .insertion ["a", "b"] false "\x7d"], .inside []) := by
  decide

/-! ## Composition -/

variable {p q r : Position} {items others : List Item}

theorem read_append {cs ds : List Char} (h : p.read cs = (items, q))
    (h' : q.read ds = (others, r)) : p.read (cs ++ ds) = (items ++ others, r) := by
  induction cs generalizing p items with
  | nil =>
    cases h
    exact h'
  | cons c cs ih =>
    cases h
    rw [List.cons_append, Position.read, ih rfl, List.append_assoc]

theorem read_append_string {s t : String} (h : p.read s.toList = (items, q))
    (h' : q.read t.toList = (others, r)) : p.read (s ++ t).toList = (items ++ others, r) := by
  rw [String.toList_append]
  exact read_append h h'

theorem outline_append {cs ds : List Chunk} (h : outline p cs = (items, q))
    (h' : outline q ds = (others, r)) : outline p (cs ++ ds) = (items ++ others, r) := by
  induction cs generalizing p items with
  | nil =>
    cases h
    exact h'
  | cons c cs ih =>
    cases h
    rw [List.cons_append, outline, ih rfl, List.append_assoc]

theorem outline_nil (p : Position) : outline p [] = ([], p) :=
  rfl

theorem outline_source {s : String} {cs : List Chunk} (h : p.read s.toList = (items, q))
    (h' : outline q cs = (others, r)) : outline p (.source s :: cs) = (items ++ others, r) := by
  rw [outline, Position.chunk, h, h']

theorem outline_inserted (s : String) {cs : List Chunk} (h : outline p cs = (items, q)) :
    outline p (.inserted s :: cs) = (.insertion p.path (p.mode = .literal) s :: items, q) := by
  rw [outline, Position.chunk, h]
  rfl

/-! ## Strings -/

theorem read_escape (path : List String) (command? key? : Option String)
    (content value : List Char) :
    Position.read ⟨path, command?, .literal, .literal key? content⟩
        (value.flatMap Text.escapeChar) =
      ([], ⟨path, command?, .literal, .literal key? (content ++ value)⟩) := by
  induction value generalizing content with
  | nil =>
    rw [List.append_nil]
    rfl
  | cons c value ih =>
    have hchar : Position.read ⟨path, command?, .literal, .literal key? content⟩
        (Text.escapeChar c) =
          ([], ⟨path, command?, .literal, .literal key? (content ++ [c])⟩) := by
      unfold Text.escapeChar
      split_ifs with hc
      · have hprotected : protectedChar c = c := by rcases hc with rfl | rfl <;> decide
        show ([], (⟨path, command?, .literal, .literal key? (content ++ [protectedChar c])⟩ :
          Position)) = _
        rw [hprotected]
      · rw [not_or] at hc
        simp [Position.read, Position.next, step, Cursor.step, Position.tokens, hc]
    rw [List.flatMap_cons, read_append hchar (ih _), List.append_assoc]
    rfl

/-- **A string that is assigned is found as it was before it was quoted.** -/
theorem read_assigned {front key : String} {path : List String}
    (hfront : p.read (front ++ "\"").toList =
      ([], ⟨path, none, .literal, .literal (some key) []⟩)) (value : String) :
    p.read (front ++ Text.quote value).toList = ([.field path key value], .inside path) := by
  have hclose : Position.read ⟨path, none, .literal, .literal (some key) value.toList⟩ "\"".toList =
      ([.field path key (String.ofList value.toList)], .inside path) := rfl
  have hvalue := read_escape path none (some key) [] value.toList
  rw [List.nil_append, ← Text.toList_escape] at hvalue
  have hread := read_append_string (read_append_string hfront hvalue) hclose
  rw [String.ofList_toList] at hread
  simpa only [Text.quote, String.append_assoc, List.nil_append] using hread

end Scorebook.Source
