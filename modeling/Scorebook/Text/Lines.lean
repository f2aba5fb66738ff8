/-!
# Lines

A text is laid out by lines: a line ends at a line feed, together with one carriage return before
it, and what follows the last line feed is a line of its own unless it is empty. Indentation pads
every line that is not empty, so it never adds blanks at the end of a line, and it ends its result
without a line feed.
-/

namespace Scorebook.Text

/-- The lines of a text, without their ends. -/
def splitLines : List Char → List (List Char)
  | [] => []
  | '\n' :: cs => [] :: splitLines cs
  | '\r' :: '\n' :: cs => [] :: splitLines cs
  | c :: cs =>
    match splitLines cs with
    | [] => [[c]]
    | line :: lines => (c :: line) :: lines

def lines (s : String) : List String :=
  (splitLines s.toList).map String.ofList

/-- Lines put one under the other, with no end after the last. -/
def joinLines (lines : List String) : String :=
  "\n".intercalate lines

/-! ## Indentation -/

def indentLine (width : Nat) (line : String) : String :=
  if line.isEmpty then "" else "".pushn ' ' width ++ line

/-- Every line that is not empty moves `width` columns to the right. -/
def indent (width : Nat) (s : String) : String :=
  joinLines ((lines s).map (indentLine width))

end Scorebook.Text
