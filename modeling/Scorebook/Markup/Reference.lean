import Scorebook.Markup.Character
import Scorebook.Text.Numeral

/-!
# References

A reference stands for one character: five have names, and every character has its number. What a
reference stands for is data as it is, while characters that were written out are cleaned up first:
in a value every blank becomes a space, in a text every line end becomes a line feed. A line end of
a text lies among characters that were written out, so a carriage return that a reference follows
ends no line.
-/

namespace Scorebook.Markup

/-- A character that was written out, or one that a reference stands for. -/
inductive Piece where
  | literal (c : Char)
  | referred (c : Char)
  deriving DecidableEq, Repr

/-- The character of a number of 32 bits; a number that is no character counts as the replacement
character. -/
def numberedChar? (n : Nat) : Option Char :=
  let c := if n.isValidChar then Char.ofNat n else '\uFFFD'
  if n < UInt32.size ∧ isLegal c then some c else none

/-- What a reference stands for, from what is between its ampersand and its semicolon. -/
def referred? (body : List Char) : Option Char :=
  match body with
  | '#' :: 'x' :: digits => (Text.readHexDigits digits).bind numberedChar?
  | '#' :: digits => (Text.readDigits digits).bind numberedChar?
  | name =>
    match String.ofList name with
    | "lt" => some '<'
    | "gt" => some '>'
    | "amp" => some '&'
    | "quot" => some '"'
    | "apos" => some '\x27'
    | _ => none

/-- The pieces of raw text, the body of an open reference being carried along in reverse. -/
def piecesFrom : Option (List Char) → List Char → Option (List Piece)
  | none, [] => some []
  | some _, [] => none
  | none, c :: cs =>
    if c = '&' then piecesFrom (some []) cs
    else (piecesFrom none cs).map (.literal c :: ·)
  | some body, c :: cs =>
    if c = ';' then do
      let r ← referred? body.reverse
      (piecesFrom none cs).map (.referred r :: ·)
    else piecesFrom (some (c :: body)) cs

def pieces? (raw : List Char) : Option (List Piece) :=
  piecesFrom none raw

/-! ## Clean-up -/

/-- Every blank of a value is a space, and so is a carriage return with its line feed. -/
def cleanValue : List Piece → List Char
  | [] => []
  | .literal '\r' :: .literal '\n' :: ps => ' ' :: cleanValue ps
  | .literal c :: ps => (if isSpace c then ' ' else c) :: cleanValue ps
  | .referred c :: ps => c :: cleanValue ps

/-- Every line of a text ends in a line feed alone: a carriage return that was written out becomes
one, together with a line feed written right after it. It stays a carriage return where nothing
written out follows it and a reference is beside it: before a reference, and at the end of the text
right after one. -/
def cleanText : List Piece → List Char
  | [] => []
  | .literal '\r' :: .literal '\n' :: ps => '\n' :: cleanText ps
  | .literal '\r' :: .referred c :: ps => '\r' :: cleanText (.referred c :: ps)
  | [.referred c, .literal '\r'] => [c, '\r']
  | .literal c :: ps => (if c = '\r' then '\n' else c) :: cleanText ps
  | .referred c :: ps => c :: cleanText ps

/-- What a raw value of an attribute says. -/
def resolveValue (raw : List Char) : Option String :=
  (pieces? raw).map fun ps => String.ofList (cleanValue ps)

/-- What raw characters between tags say. -/
def resolveText (raw : List Char) : Option String :=
  (pieces? raw).map fun ps => String.ofList (cleanText ps)

/-- What a section without references says. -/
def resolveVerbatim (content : List Char) : String :=
  String.ofList (cleanText (content.map .literal))

end Scorebook.Markup
