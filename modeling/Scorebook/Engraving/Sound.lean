import Scorebook.Duration.Basic
import Scorebook.Engraving.Mark
import Scorebook.Pitch.Spelling

/-!
# Chords and rests

The sounding events of a voice. A chord is its notes, its duration and the marks that belong to it
from the start, always in the same order: tremolo, articulations, slurs, tie. A chord without
notes holds its place by a spacer. A rest is written by its letter and duration, and the rest of a
whole measure takes its length from the length given for it, to which dots add nothing.
-/

namespace Scorebook

/-- The duration of a token with dots behind it. -/
def dottedDuration (token : String) (dots : Nat) : Except ConversionError String :=
  match Duration.resolve token with
  | .ok d => .ok (d.text ++ dotsText dots)
  | .error e => .error e

/-! ## Rests -/

namespace Rest

/-- The token that tells how long the rest is. -/
def token (rest : Rest) : String :=
  rest.duration.getD rest.durationType

def isMeasureRest (rest : Rest) : Bool :=
  rest.durationType = "measure"

def letter (rest : Rest) : String :=
  if !rest.visible then "s" else if rest.isMeasureRest then "R" else "r"

def text (rest : Rest) : Except ConversionError String :=
  let dots := if rest.isMeasureRest then 0 else rest.dots
  match dottedDuration rest.token dots with
  | .ok duration => .ok (rest.letter ++ duration)
  | .error e => .error e

end Rest

/-! ## Chords -/

namespace Note

/-- The spelled pitch, marked where its accidental is to be shown. -/
def text (key : Option Key) (note : Note) : String :=
  (Pitch.spell key note.pitch).text ++ if note.accidentalShown then "!" else ""

/-- Whether a tie leads on from the note. -/
def isTied (note : Note) : Bool :=
  note.ties.any fun s => s.kind = "Tie" && s.starts

end Note

namespace Chord

/-- The notes and the duration they share. -/
def body (key : Option Key) (duration : String) : List Note → String
  | [] => "s" ++ duration
  | [note] => note.text key ++ duration
  | notes => "<" ++ " ".intercalate (notes.map (Note.text key)) ++ ">" ++ duration

/-- The tremolo mark: the subtype without its first letter tells the strokes. -/
def tremoloText (chord : Chord) : String :=
  match chord.tremolo.map String.toList with
  | some (_ :: c :: cs) => ":" ++ String.ofList (c :: cs)
  | _ => ""

def articulationsText (chord : Chord) : String :=
  String.join (chord.articulations.map Mark.articulation)

def slursText (chord : Chord) : String :=
  String.join ((chord.spanners.filter (·.kind = "Slur")).map Mark.slur)

def tieText (chord : Chord) : String :=
  if chord.notes.any Note.isTied then "~" else ""

/-- All marks of the chord itself. -/
def marksText (chord : Chord) : String :=
  chord.tremoloText ++ chord.articulationsText ++ chord.slursText ++ chord.tieText

def text (key : Option Key) (chord : Chord) : Except ConversionError String :=
  match dottedDuration chord.durationType chord.dots with
  | .ok duration => .ok (body key duration chord.notes ++ chord.marksText)
  | .error e => .error e

end Chord

end Scorebook
