import Scorebook.Score.Event

/-!
# Parts

A part is what one player, or one section of players on one instrument, reads: its instruments,
the first of which names it, and its staves with their music. Neighbouring parts may form a
section, which is bracketed together.
-/

namespace Scorebook

structure Channel where
  programs : List String
  synthesizer : Option String
  midiPort : Option Nat
  midiChannel : Option Nat
  deriving DecidableEq, Repr

structure Instrument where
  id : Option String
  longName : String
  shortName : String
  trackName : String
  instrumentId : String
  transposeDiatonic : Int
  transposeChromatic : Int
  /-- Clefs by the number of the staff, counted from one. -/
  clefs : List (Nat × String)
  channels : List Channel
  deriving DecidableEq, Repr

namespace Instrument

/-- The clef given for a staff. -/
def clef? (instrument : Instrument) (staffNumber : Nat) : Option String :=
  instrument.clefs.lookup staffNumber

end Instrument

structure Staff where
  id : String
  clef : String
  measures : List Measure

structure Part where
  id : String
  trackName : String
  instruments : List Instrument
  staves : List Staff

namespace Part

/-- The id by which the part's section is found; empty where there is no instrument. -/
def instrumentId (part : Part) : String :=
  (part.instruments.head?.map Instrument.instrumentId).getD ""

end Part

/-- A part on its own, or neighbouring parts of one section. -/
inductive Group where
  | single (part : Part)
  | bracketed (id : String) (barLineSpan : Bool) (parts : List Part)

namespace Group

def parts : Group → List Part
  | single p => [p]
  | bracketed _ _ ps => ps

end Group

end Scorebook
