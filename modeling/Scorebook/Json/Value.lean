import Scorebook.Decimal.Basic
import Scorebook.Text.Numeral

/-!
# JSON values

A value is kept as it was written, as far as that can matter: a number is its digits and not yet a
double, and a string that holds a lone surrogate, which no text can hold, is still a string. So a
text can be checked against the grammar first, and what it means is asked only of the values that
are used.
-/

namespace Scorebook.Json

/-- A number as written. -/
structure Numeral where
  negative : Bool
  whole : List Char
  places : List Char
  exponent : Int
  deriving DecidableEq, Repr

/-- A string, or `none` where its escapes leave a lone surrogate. -/
abbrev Literal := Option String

inductive Value where
  | null
  | bool (b : Bool)
  | number (n : Numeral)
  | string (s : Literal)
  | array (items : List Value)
  | object (fields : List (Literal × Value))

namespace Numeral

def magnitude (n : Numeral) : Decimal :=
  ⟨Text.digitsValue (n.whole ++ n.places), n.exponent - n.places.length⟩

/-- The double nearest to the number. -/
def nearest (n : Numeral) : Float :=
  if n.negative then -n.magnitude.toFloat else n.magnitude.toFloat

end Numeral

end Scorebook.Json
