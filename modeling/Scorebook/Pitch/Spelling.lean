import Scorebook.Pitch.Key

/-!
# Spelling of pitches

A document stores a pitch as a count of semitones, in which 60 is middle C. To write it, its
octave is told by marks and its place in the octave by a note name. The seven white keys have one
name each. A black key has two, and the active key decides between them: sharp keys write sharps,
flat keys write flats, and around C major the commonest accidentals of either side are mixed.
-/

namespace Scorebook

/-- A note name in an octave; octave 0 is the one of middle C. -/
structure Pitch where
  name : NoteName
  octave : Int
  deriving DecidableEq, Repr

/-! ## Octaves -/

/-- At most so many marks are written after a name. -/
def maxOctaveMarks : Nat := 5

/-- Marks are counted from the unmarked octave, which lies below the one of middle C. -/
def octaveMarks (octave : Int) : String :=
  if 0 ≤ octave then String.join (List.replicate (min (octave + 1).toNat maxOctaveMarks) "'")
  else String.join (List.replicate (min (-octave - 1).toNat maxOctaveMarks) ",")

/-! ## Names -/

/-- The black keys, in semitones above `c`, that are written as flats in this key. -/
def Key.flats (key : Key) : List Nat :=
  if 0 < key.fifths then []
  else if key.fifths = 0 then [3, 10]
  else if key.fifths = -1 then [3, 8, 10]
  else [1, 3, 6, 8, 10]

/-- The name of the note so many semitones above `c`, given which black keys are flats. -/
def NoteName.ofSemitone (flats : List Nat) (n : Nat) : NoteName :=
  let black (below above : Step) : NoteName :=
    if n ∈ flats then ⟨above, .flat⟩ else ⟨below, .sharp⟩
  match n with
  | 0 => ⟨.c, .natural⟩
  | 1 => black .c .d
  | 2 => ⟨.d, .natural⟩
  | 3 => black .d .e
  | 4 => ⟨.e, .natural⟩
  | 5 => ⟨.f, .natural⟩
  | 6 => black .f .g
  | 7 => ⟨.g, .natural⟩
  | 8 => black .g .a
  | 9 => ⟨.a, .natural⟩
  | 10 => black .a .b
  | _ => ⟨.b, .natural⟩

namespace Pitch

/-- The spelling of a pitch in a key; where no key has been met, C major is taken. -/
def spell (key : Option Key) (semitones : Int) : Pitch where
  name := .ofSemitone (key.getD ⟨0⟩).flats (semitones % 12).toNat
  octave := semitones / 12 - 5

def text (p : Pitch) : String :=
  p.name.text ++ octaveMarks p.octave

end Pitch

end Scorebook
