/-!
# Identifiers

A macro needs a name of ASCII letters only. The name of a part is reduced to its letters, in lower
case, and its digits, and then every digit is spelled as a word with a capital, so that a digit can
never be taken for the same word in letters. Where the reduction is empty the name is `part`.

Lower case is that of Unicode, in which two more characters have an ASCII letter in their lower
case: the Kelvin sign and the capital I with a dot.
-/

namespace Scorebook.Identifier

/-- The lower-case ASCII letter or the digit that a character contributes to a name. -/
def symbol? (c : Char) : Option Char :=
  if c.isUpper then some c.toLower
  else if c.isLower || c.isDigit then some c
  else if c = '\u212A' then some 'k'
  else if c = '\u0130' then some 'i'
  else none

/-- What remains of a name: lower-case ASCII letters and digits. -/
def reduction (name : String) : List Char :=
  name.toList.filterMap symbol?

theorem reduction_append (s t : String) : reduction (s ++ t) = reduction s ++ reduction t := by
  simp [reduction]

/-! ## Spelling -/

def digitWord : Char → String
  | '0' => "Zero"
  | '1' => "One"
  | '2' => "Two"
  | '3' => "Three"
  | '4' => "Four"
  | '5' => "Five"
  | '6' => "Six"
  | '7' => "Seven"
  | '8' => "Eight"
  | _ => "Nine"

def spellSymbol (c : Char) : List Char :=
  if c.isDigit then (digitWord c).toList else [c]

/-- Letters stand for themselves and digits are spelled. -/
def spell (symbols : List Char) : String :=
  String.ofList (symbols.flatMap spellSymbol)

theorem spell_append (s t : List Char) : spell (s ++ t) = spell s ++ spell t := by
  simp [spell, String.ofList_append]

/-- The identifier of a name. -/
def ofName (name : String) : String :=
  match reduction name with
  | [] => "part"
  | symbols => spell symbols

end Scorebook.Identifier
