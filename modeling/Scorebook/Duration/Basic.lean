import Scorebook.Duration.NoteValue
import Scorebook.Error
import Scorebook.Text.Blank
import Scorebook.Text.Numeral

/-!
# Durations

A duration is written as a note value where one has its length, and otherwise as a whole note
multiplied by the length, as in `1*9/8`. A document states a duration by a token: the name of a
note value, or a fraction of a whole note. A token that is neither, or a length of zero, cannot be
written at all, and the conversion stops there rather than guess.
-/

namespace Scorebook

/-- What stands behind a note name. -/
inductive Duration where
  | value (v : NoteValue)
  /-- A whole note stretched to this length. -/
  | stretched (length : Rat)
  deriving DecidableEq, Repr

/-- A length in lowest terms, the denominator left out when it is one. -/
def lengthText (length : Rat) : String :=
  if length.den = 1 then toString length.num else toString length.num ++ "/" ++ toString length.den

namespace Duration

/-- In whole notes. -/
def length : Duration → Rat
  | value v => v.length
  | stretched l => l

def text : Duration → String
  | value v => v.text
  | stretched l => "1*" ++ lengthText l

/-- The duration of a positive length. -/
def ofLength? (length : Rat) : Option Duration :=
  if length ≤ 0 then none
  else some (((NoteValue.ofLength? length).map value).getD (stretched length))

/-- The duration that a document means by a token. -/
def ofToken? (token : String) : Option Duration :=
  match NoteHead.named? (Text.trim token) with
  | some head => some (value ⟨head, 0⟩)
  | none => (Text.readFraction (Text.trim token)).bind ofLength?

/-- The duration of a token, or the complaint about that token as it was given. -/
def resolve (token : String) : Except ConversionError Duration :=
  match ofToken? token with
  | some d => .ok d
  | none => .error (.unknownDuration token)

end Duration

/-! ## Irregular measures -/

/-- The directive that tells the length of a measure which its time signature does not tell. -/
def partialDirective (length : Rat) : Except ConversionError String :=
  match Duration.ofLength? length with
  | some d => .ok ("\\partial " ++ d.text)
  | none => .error (.unknownDuration (lengthText length))

end Scorebook
