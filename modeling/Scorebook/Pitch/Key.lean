import Scorebook.Pitch.Name

/-!
# Keys

A key is its place on the line of fifths: zero for C major, the number of sharps when positive and
the number of flats when negative. Along that line the steps recur in the order F C G D A E B, and
each turn of seven adds a sharp, so the tonic can be computed. Only major keys of at most seven
accidentals are written; a place further out is taken for the last one on its side.
-/

namespace Scorebook

structure Key where
  fifths : Int
  deriving DecidableEq, Repr

namespace Key

/-- The place on the line of fifths, brought back to at most seven accidentals. -/
def written (key : Key) : Int :=
  max (-7) (min 7 key.fifths)

/-- The tonic, counted from F, the place before C. -/
def tonic (key : Key) : NoteName where
  step := match ((key.written + 1) % 7).toNat with
    | 0 => .f | 1 => .c | 2 => .g | 3 => .d | 4 => .a | 5 => .e | _ => .b
  alteration := .nearest ((key.written + 1) / 7)

/-- The tonic as the name of a key, with a capital. -/
def tonicText (key : Key) : String :=
  key.tonic.text.capitalize

/-- The directive that announces the key. -/
def directive (key : Key) : String :=
  "\\key " ++ key.tonic.text ++ " \\major"

end Key

end Scorebook
