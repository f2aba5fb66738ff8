import Scorebook.Score.Event

/-!
# Directives

What is written between the notes of a voice on its own account: time, tempo, clef and bar line.
The directive for a key stands with the keys.
-/

namespace Scorebook

def TimeSignature.directive (t : TimeSignature) : String :=
  "\\time " ++ toString t.beats ++ "/" ++ toString t.beatUnit

/-! ## Tempo -/

/-- Quarter notes in a minute, to the nearest whole number and at most what 32 bits hold. -/
def beatsPerMinute (pace : Float) : Nat :=
  (pace * 60).round.toUInt32.toNat

/-- A tempo that is positive and finite; no other can be played. -/
def tempoDirective (pace : Option Float) : Option String :=
  match pace with
  | none => none
  | some p =>
    if p.isFinite && p > 0 then some ("\\tempo 4 = " ++ toString (beatsPerMinute p)) else none

/-! ## Clefs and bar lines -/

/-- The name that a clef is written by; a clef that is not known is taken for the treble clef. -/
def clefName : String → String
  | "G" => "treble"
  | "F" => "bass"
  | "C" => "alto"
  | "C3" => "alto"
  | "C4" => "tenor"
  | "C1" => "soprano"
  | "C2" => "mezzosoprano"
  | "G8vb" => "\"treble_8\""
  | "F8vb" => "\"bass_8\""
  | "G8va" => "\"treble^8\""
  | "G15ma" => "\"treble^15\""
  | "PERC" => "percussion"
  | "PERC2" => "percussion"
  | _ => "treble"

def clefDirective (clef : String) : String :=
  "\\clef " ++ clefName clef

/-- The strokes and dots of a bar line that is not the ordinary one. -/
def barLineGlyph? : String → Option String
  | "double" => some "||"
  | "end" => some "|."
  | "start-repeat" => some ".|:"
  | "end-repeat" => some ":|."
  | "end-start-repeat" => some ":|.|:"
  | "dashed" => some "!"
  | "dotted" => some ";"
  | "heavy" => some "."
  | "double-heavy" => some ".."
  | "reverse-end" => some ".|"
  | _ => none

def barLineDirective (subtype : String) : Option String :=
  (barLineGlyph? subtype).map fun glyph => "\\bar \"" ++ glyph ++ "\""

end Scorebook
