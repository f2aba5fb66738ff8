import Scorebook.Pitch.Spelling

/-!
# Transposing instruments

An instrument that transposes states its interval twice: in steps of the scale and in semitones.
The steps choose the letter of the pitch at which a written middle C sounds, and the semitones
choose its alteration. Whole octaves are told apart first and come back as octave marks. An
interval that would need more than a double accidental takes the nearest there is.
-/

namespace Scorebook

/-- Semitones covered by going `n` steps up the C major scale from `c`, or down for negative `n`. -/
def scaleDistance (n : Int) : Int :=
  12 * (n / 7) + (Step.ofIndex n).semitone

/-- Where a written middle C sounds, unless the interval is made of whole octaves. -/
def Pitch.sounding? (diatonic chromatic : Int) : Option Pitch :=
  let octaves := diatonic.tdiv 7
  let steps := diatonic.tmod 7
  let semitones := chromatic.tmod 12
  if steps = 0 ∧ semitones = 0 then none
  else some {
    name := ⟨Step.ofIndex steps, .nearest (semitones - scaleDistance steps)⟩
    octave := octaves + steps / 7 }

end Scorebook
