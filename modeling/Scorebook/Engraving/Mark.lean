import Scorebook.Score.Event
import Scorebook.Text.Blank
import Scorebook.Text.Quoted

/-!
# Marks

The marks that stand behind a note: dynamics, fermatas, texts for the player, hairpins and slurs,
articulations and ornaments. A subtype that is not known here is written as nothing at all.
-/

namespace Scorebook.Mark

/-! ## Dynamics and fermatas -/

def dynamics : List String :=
  ["pppp", "ppp", "pp", "p", "mp", "mf", "f", "ff", "fff", "ffff", "fp", "sf", "sfz", "sff",
    "sffz", "sfp", "rfz", "rf", "fz", "sfpp"]

def dynamic (subtype : String) : String :=
  if subtype ∈ dynamics then "\\" ++ subtype else ""

/-- A fermata; those below the staff are told so by an underscore. -/
def fermata : String → String
  | "fermataAbove" => "\\fermata"
  | "fermataBelow" => "_\\fermata"
  | "fermataShortAbove" => "\\shortfermata"
  | "fermataShortBelow" => "_\\shortfermata"
  | "fermataLongAbove" => "\\longfermata"
  | "fermataLongBelow" => "_\\longfermata"
  | "fermataVeryShortAbove" => "\\veryshortfermata"
  | "fermataVeryShortBelow" => "_\\veryshortfermata"
  | "fermataVeryLongAbove" => "\\verylongfermata"
  | "fermataVeryLongBelow" => "_\\verylongfermata"
  | _ => ""

/-! ## Texts and spans -/

/-- A playing technique above the staff, by its shown text or else by its kind. -/
def technique (kind text : Option String) : String :=
  let shown := Text.trim ((text.orElse fun _ => kind).getD "")
  if shown = "" then "" else "^" ++ Text.quote shown

/-- The parentheses of a slur. -/
def slur (s : Spanner) : String :=
  (if s.starts then "(" else "") ++ if s.ends then ")" else ""

/-- A hairpin, which closes or opens according to its subtype. -/
def hairpin (s : Spanner) : String :=
  let opening := if s.payload = some "1" ∨ s.payload = some "3" then "\\>" else "\\<"
  (if s.starts then opening else "") ++ if s.ends then "\\!" else ""

/-- A span that stands in a voice by itself. -/
def spanner (s : Spanner) : String :=
  if s.kind = "HairPin" then hairpin s
  else if s.kind = "Slur" then slur s
  else ""

/-! ## Articulations and ornaments -/

def articulation : String → String
  | "articStaccatoAbove" => "-."
  | "articStaccatoBelow" => "-."
  | "articStaccatissimoAbove" => "-!"
  | "articStaccatissimoBelow" => "-!"
  | "articStaccatissimoStrokeAbove" => "-!"
  | "articStaccatissimoWedgeAbove" => "-!"
  | "articAccentAbove" => "->"
  | "articAccentBelow" => "->"
  | "articMarcatoAbove" => "-^"
  | "articMarcatoBelow" => "-^"
  | "articTenutoAbove" => "--"
  | "articTenutoBelow" => "--"
  | "articTenutoStaccatoAbove" => "-_"
  | "articTenutoStaccatoBelow" => "-_"
  | "articAccentStaccatoAbove" => "->-."
  | "articAccentStaccatoBelow" => "->-."
  | "articMarcatoStaccatoAbove" => "-^-."
  | "articMarcatoStaccatoBelow" => "-^-."
  | "brassMuteClosed" => "-+"
  | "stringsUpBow" => "\\upbow"
  | "stringsDownBow" => "\\downbow"
  | "stringsHarmonic" => "\\flageolet"
  | "ornamentTrill" => "\\trill"
  | "ornamentTurn" => "\\turn"
  | "ornamentMordent" => "\\mordent"
  | "ornamentShortTrill" => "\\prall"
  | _ => ""

end Scorebook.Mark
