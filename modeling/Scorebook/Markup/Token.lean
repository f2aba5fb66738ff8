import Scorebook.Markup.Character
import Scorebook.Text.Occurrence

/-!
# Tokens of markup

Seen from left to right a document is a row of tags, of runs of characters between them, and of
sections, comments and instructions. Which of these comes next is decided by the characters it
begins with. A token keeps its characters as they were written: what a reference stands for, which
names are bound and which tags belong together is asked of the row as a whole.

Every reader takes the characters that lie ahead and gives what it read together with the rest.
-/

namespace Scorebook.Markup

/-- A name with a qualifier, empty where there is none, in front of its colon. -/
structure Name where
  qualifier : String
  base : String
  deriving DecidableEq, Repr

/-- An attribute with its value as written. -/
structure RawAttribute where
  name : Name
  value : List Char
  deriving DecidableEq, Repr

inductive Token where
  /-- A start tag; an empty one is closed by its own slash. -/
  | start (name : Name) (attributes : List RawAttribute) (closed : Bool)
  | finish (name : Name)
  /-- Characters between tags, with references in them. -/
  | characters (raw : List Char)
  /-- A section in which every character stands for itself. -/
  | verbatim (content : List Char)
  | comment (content : List Char)
  | instruction (target content : List Char)
  deriving DecidableEq, Repr

/-! ## Marks -/

/-- What follows a mark, if it comes next. -/
def after? (mark cs : List Char) : Option (List Char) :=
  if mark.isPrefixOf cs then some (cs.drop mark.length) else none

/-- What comes before the first occurrence of a mark, and what follows it. -/
def cut? (mark : List Char) : List Char → Option (List Char × List Char)
  | [] => none
  | c :: cs =>
    match after? mark (c :: cs) with
    | some rest => some ([], rest)
    | none => (cut? mark cs).map fun (before, rest) => (c :: before, rest)

theorem eq_append_of_after? {mark cs rest : List Char} (h : after? mark cs = some rest) :
    cs = mark ++ rest := by
  rw [after?] at h
  split at h
  · next hp =>
    obtain ⟨t, rfl⟩ := List.isPrefixOf_iff_prefix.1 hp
    simp only [List.drop_left', Option.some.injEq] at h
    rw [h]
  · cases h

theorem eq_append_of_cut? {mark cs before rest : List Char}
    (h : cut? mark cs = some (before, rest)) : cs = before ++ mark ++ rest := by
  induction cs generalizing before with
  | nil => cases h
  | cons c cs ih =>
    rw [cut?] at h
    split at h
    · next r hr =>
      cases h
      simpa using eq_append_of_after? hr
    · obtain ⟨⟨b, r⟩, hb, hbr⟩ := Option.map_eq_some_iff.1 h
      cases hbr
      simp [ih hb]

/-- As `cut?`, all before the mark being legal. -/
def cutLegal? (mark cs : List Char) : Option (List Char × List Char) :=
  (cut? mark cs).filter fun (before, _) => before.all isLegal

def beginsName (cs : List Char) : Bool :=
  cs.head?.any isNameStart

/-! ## Names and attributes -/

/-- A name has at most one colon, and both its halves begin like names; only the first half may be
missing. -/
def splitName (cs : List Char) : Option Name :=
  let before := cs.takeWhile (· ≠ ':')
  match cs.dropWhile (· ≠ ':') with
  | [] => if beginsName before then some ⟨"", String.ofList before⟩ else none
  | _ :: base =>
    if (before = [] || beginsName before) && beginsName base && !base.contains ':' then
      some ⟨String.ofList before, String.ofList base⟩
    else none

def readName (cs : List Char) : Option (Name × List Char) :=
  (splitName (cs.takeWhile isNameChar)).map fun name => (name, cs.dropWhile isNameChar)

/-- A value between quotes of one kind, in which no tag may begin. -/
def readValue : List Char → Option (List Char × List Char)
  | [] => none
  | quote :: cs =>
    if quote = '"' ∨ quote = '\x27' then
      let value := cs.takeWhile fun c => c ≠ quote && c ≠ '<'
      match cs.dropWhile fun c => c ≠ quote && c ≠ '<' with
      | c :: rest => if c = quote ∧ value.all isLegal then some (value, rest) else none
      | [] => none
    else none

def readAttribute (cs : List Char) : Option (RawAttribute × List Char) := do
  let (name, cs) ← readName cs
  let cs ← after? ['='] (skipSpaces cs)
  let (value, cs) ← readValue (skipSpaces cs)
  some (⟨name, value⟩, cs)

/-- What stands in a start tag behind its name: attributes, each after a space, then whether the
tag is closed by its own slash. The number of characters ahead is fuel enough. -/
def readAttributes : Nat → List Char → Option (List RawAttribute × Bool × List Char)
  | 0, _ => none
  | fuel + 1, cs =>
    match skipSpaces cs with
    | '>' :: rest => some ([], false, rest)
    | '/' :: '>' :: rest => some ([], true, rest)
    | ahead =>
      if cs.head?.any isSpace then do
        let (attr, rest) ← readAttribute ahead
        let (attrs, closed, rest) ← readAttributes fuel rest
        some (attr :: attrs, closed, rest)
      else none

/-! ## Tokens -/

namespace Token

def readStart (fuel : Nat) (cs : List Char) : Option (Token × List Char) := do
  let (name, cs) ← readName cs
  let (attrs, closed, rest) ← readAttributes fuel cs
  some (.start name attrs closed, rest)

def readFinish (cs : List Char) : Option (Token × List Char) := do
  let (name, cs) ← readName cs
  let rest ← after? ['>'] (skipSpaces cs)
  some (.finish name, rest)

/-- A comment holds no two hyphens in a row, and none before its end. -/
def readComment (cs : List Char) : Option (Token × List Char) := do
  let (content, rest) ← cutLegal? "-->".toList cs
  if Text.occursIn "--".toList content || content.getLast? = some '-' then none
  else some (.comment content, rest)

def readVerbatim (cs : List Char) : Option (Token × List Char) := do
  let (content, rest) ← cutLegal? "]]>".toList cs
  some (.verbatim content, rest)

def readInstruction (cs : List Char) : Option (Token × List Char) := do
  let target := cs.takeWhile isNameChar
  let (content, rest) ← cutLegal? "?>".toList (skipSpaces (cs.dropWhile isNameChar))
  if beginsName target then some (.instruction target content, rest) else none

def readCharacters (cs : List Char) : Option (Token × List Char) :=
  let raw := cs.takeWhile (· ≠ '<')
  if raw.all isLegal && !Text.occursIn "]]>".toList raw then
    some (.characters raw, cs.dropWhile (· ≠ '<'))
  else none

/-- The token that comes next. An instruction may not begin like a declaration. -/
def read (fuel : Nat) (cs : List Char) : Option (Token × List Char) :=
  match cs with
  | '<' :: '!' :: ahead =>
    match after? "--".toList ahead, after? "[CDATA[".toList ahead with
    | some rest, _ => readComment rest
    | _, some rest => readVerbatim rest
    | _, _ => none
  | '<' :: '?' :: ahead =>
    if (after? "xml ".toList ahead).isSome then none else readInstruction ahead
  | '<' :: '/' :: ahead => readFinish ahead
  | '<' :: ahead => readStart fuel ahead
  | _ => readCharacters cs

/-- The row of tokens of a text. Every token takes a character at least, so the length of the text
is fuel enough. -/
def readAll : Nat → List Char → Option (List Token)
  | _, [] => some []
  | 0, _ => none
  | fuel + 1, cs => do
    let (token, rest) ← read (fuel + 1) cs
    let tokens ← readAll fuel rest
    some (token :: tokens)

end Token

/-! ## Declarations -/

/-- A field of the declaration that may be there, with a space behind it unless the end comes. -/
def skipField (label : String) (needed : Bool) (cs : List Char) : Option (List Char) :=
  if label.toList.isPrefixOf cs then do
    let (_, rest) ← readAttribute cs
    if rest.head?.any isSpace || (after? "?>".toList rest).isSome then some (skipSpaces rest)
    else none
  else if needed then none
  else some cs

/-- What follows the declaration at the beginning of a text, or the text itself where there is
none. -/
def skipDeclaration (cs : List Char) : Option (List Char) :=
  match after? "<?xml ".toList cs with
  | none => some cs
  | some rest => do
    let rest ← skipField "version" true (skipSpaces rest)
    let rest ← skipField "encoding" false rest
    let rest ← skipField "standalone" false rest
    after? "?>".toList rest

/-- The tokens of a document behind its byte order mark and its declaration. -/
def tokens? (s : String) : Option (List Token) := do
  let text := match s.toList with
    | '\uFEFF' :: cs => cs
    | cs => cs
  let rest ← skipDeclaration text
  Token.readAll rest.length rest

end Scorebook.Markup
