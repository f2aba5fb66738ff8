import Scorebook.Pitch.Key

/-!
# Events

A voice is a row of events in the order of the document. Only chords and rests sound; the others
are directives, which stand for themselves, and decorations, which belong to the next sounding
event of the voice.
-/

namespace Scorebook

/-- One end, or both, of a span such as a slur, a tie or a hairpin. -/
structure Spanner where
  kind : String
  starts : Bool
  ends : Bool
  /-- Subtype of what is spanned, such as the direction of a hairpin. -/
  payload : Option String
  deriving DecidableEq, Repr

structure Note where
  /-- Semitones, 60 being middle C. -/
  pitch : Int
  /-- Whether its accidental is shown whatever the key says. -/
  accidentalShown : Bool
  ties : List Spanner
  deriving DecidableEq, Repr

structure Chord where
  durationType : String
  dots : Nat
  notes : List Note
  tremolo : Option String
  articulations : List String
  spanners : List Spanner
  deriving DecidableEq, Repr

structure Rest where
  durationType : String
  /-- A length of its own, which the rest of a whole measure has. -/
  duration : Option String
  dots : Nat
  visible : Bool
  deriving DecidableEq, Repr

structure TimeSignature where
  beats : Nat
  beatUnit : Nat
  deriving DecidableEq, Repr

inductive Event where
  | key (key : Key)
  | time (time : TimeSignature)
  /-- In quarter notes a second. -/
  | tempo (pace : Option Float)
  | rest (rest : Rest)
  | chord (chord : Chord)
  | clef (name : String)
  | barLine (subtype : String)
  | fermata (subtype : String)
  /-- A playing technique, by its kind and by the text shown for it. -/
  | technique (kind text : Option String)
  | spanner (spanner : Spanner)
  | dynamic (subtype : String)

abbrev Voice := List Event

structure Measure where
  irregular : Bool
  /-- The actual length in whole notes, where the time signature does not tell it. -/
  length : Option Rat
  voices : List Voice

end Scorebook
