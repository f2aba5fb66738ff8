import Scorebook.Decimal.Basic
import Scorebook.Text.Numeral

/-!
# Doubles from text

A floating-point numeral is an optional sign and then either a name for what is not finite, in any
case, or digits with at most one point among them and an optional exponent. One digit is enough,
on either side of the point. The double nearest to the numeral is its value.
-/

namespace Scorebook.Decimal

/-- An exponent: an optional sign and digits. -/
def readExponent : List Char → Option Int
  | '-' :: cs => (Text.readDigits cs).map (fun n => -(n : Int))
  | '+' :: cs => (Text.readDigits cs).map Int.ofNat
  | cs => (Text.readDigits cs).map Int.ofNat

/-- What follows the digits: nothing, or an exponent behind its mark. -/
def readSuffix : List Char → Option Int
  | [] => some 0
  | c :: cs => if c = 'e' ∨ c = 'E' then readExponent cs else none

/-- An unsigned numeral. -/
def readMagnitude (cs : List Char) : Option Decimal :=
  let whole := cs.takeWhile Char.isDigit
  let rest := cs.dropWhile Char.isDigit
  let (places, rest) := match rest with
    | '.' :: rest => (rest.takeWhile Char.isDigit, rest.dropWhile Char.isDigit)
    | rest => ([], rest)
  if whole = [] ∧ places = [] then none
  else (readSuffix rest).map fun e => ⟨Text.digitsValue (whole ++ places), e - places.length⟩

/-- The names of the values that are not finite. -/
def readSpecial (cs : List Char) : Option Float :=
  match String.ofList (cs.map Char.toLower) with
  | "inf" => some (1 / 0)
  | "infinity" => some (1 / 0)
  | "nan" => some (0 / 0)
  | _ => none

def readUnsigned (cs : List Char) : Option Float :=
  (readSpecial cs).orElse fun _ => (readMagnitude cs).map toFloat

/-- The double that a numeral stands for. -/
def readFloat (s : String) : Option Float :=
  match s.toList with
  | '-' :: cs => (readUnsigned cs).map (fun x => -x)
  | '+' :: cs => readUnsigned cs
  | cs => readUnsigned cs

end Scorebook.Decimal
