import Scorebook.Json.Reader
import Scorebook.Settings
import Scorebook.Text.Blank

/-!
# Reading settings

Settings are given as JSON: an object with the five known keys, or an array of the five values in
their order. What is missing keeps its standard value, and `null` is no choice. A known key may
not be given twice; other keys are passed over, whatever they hold. Blank text means no settings.

A number is computed here from its leading digits, as many as fit 64 bits, by one multiplication or
division by a power of ten, and is refused when it leaves the range of doubles upwards.
-/

namespace Scorebook.Settings

open Json

/-! ## Numbers -/

/-- Digits taken into a significand of 64 bits for as long as it holds them, and how many. -/
def takeDigits : Nat → List Char → Nat × Nat
  | n, [] => (n, 0)
  | n, c :: cs =>
    if Text.pushDigit n c < UInt64.size then
      let (m, taken) := takeDigits (Text.pushDigit n c) cs
      (m, taken + 1)
    else (n, 0)

/-- A power of ten that doubles reach, as the nearest of them. -/
def powerOfTen (e : Nat) : Float :=
  Float.ofScientific 1 false e

/-- Division by a power of ten, in steps of `10^308` while there is something left to divide. -/
def divideByPower (x : Float) (e : Nat) : Float :=
  if h : e ≤ 308 then x / powerOfTen e
  else if x == 0 then x
  else divideByPower (x / powerOfTen 308) (e - 308)
termination_by e
decreasing_by omega

/-- A significand times a power of ten, unless that is infinite. -/
def scale (significand : Nat) (e : Int) : Option Float :=
  let x := Float.ofNat significand
  if e < 0 then some (divideByPower x (-e).toNat)
  else if significand = 0 then some x
  else if 308 < e then none
  else
    let y := x * powerOfTen e.toNat
    if y.isInf then none else some y

/-- The double that a number sets. An exponent beyond 32 bits leaves a zero a zero. -/
def magnitude? (n : Numeral) : Option Float :=
  let (leading, wholeTaken) := takeDigits 0 n.whole
  let (significand, placesTaken) := takeDigits leading n.places
  let shift : Int := n.whole.length - wholeTaken - placesTaken
  scale significand (n.exponent + shift)

def float? (n : Numeral) : Option Float :=
  (magnitude? n).map fun x => if n.negative then -x else x

/-! ## Fields -/

/-- A value of an optional setting: `null` is no choice. -/
def optional? {α : Type} (read : Value → Option α) : Value → Option (Option α)
  | .null => some none
  | v => (read v).map some

def text? : Value → Option String
  | .string s => s
  | _ => none

def size? : Value → Option Float
  | .number n => float? n
  | _ => none

/-- The five keys, in the order in which an array gives their values. -/
def keys : List String :=
  ["scorePaperSize", "partsPaperSize", "scoreStaffSize", "partsStaffSize", "targetLilypondVersion"]

/-- The settings with the value of one key set. -/
def set (settings : Settings) (key : String) (v : Value) : Option Settings :=
  match key with
  | "scorePaperSize" => (optional? text? v).map fun s => { settings with scorePaperSize := s }
  | "partsPaperSize" => (optional? text? v).map fun s => { settings with partsPaperSize := s }
  | "scoreStaffSize" => (optional? size? v).map fun x => { settings with scoreStaffSize := x }
  | "partsStaffSize" => (optional? size? v).map fun x => { settings with partsStaffSize := x }
  | "targetLilypondVersion" => (text? v).map fun s => { settings with targetVersion := s }
  | _ => some settings

def setAll (settings : Settings) (fields : List (String × Value)) : Option Settings :=
  fields.foldlM (fun s field => s.set field.1 field.2) settings

/-! ## Whole texts -/

/-- The fields of an object, if every key is a text. -/
def namedFields (fields : List (Literal × Value)) : Option (List (String × Value)) :=
  fields.mapM fun field => field.1.map fun key => (key, field.2)

def ofValue? : Value → Option Settings
  | .object fields => do
    let fields ← namedFields fields
    if ((fields.map Prod.fst).filter (· ∈ keys)).Nodup then setAll standard fields else none
  | .array items =>
    if items.length ≤ keys.length then setAll standard (keys.zip items) else none
  | _ => none

/-- The settings of a text: none where it is blank, and failure where it is no settings text. -/
def read (s : String) : Option (Option Settings) :=
  if s.toList.all Text.isBlank then some none
  else match Json.read s with
    | some v => (ofValue? v).map some
    | none => none

end Scorebook.Settings
