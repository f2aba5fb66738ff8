/-!
# Note names

A note name is one of the seven steps of the scale with an alteration of at most two semitones
either way. It is written in the Dutch manner: `is` for a sharp and `es` for a flat, the latter
losing its vowel after the vowels `e` and `a`.
-/

namespace Scorebook

/-- A step of the C major scale. -/
inductive Step where
  | c | d | e | f | g | a | b
  deriving DecidableEq, Repr

namespace Step

/-- Semitones above the `c` below. -/
def semitone : Step → Int
  | c => 0 | d => 2 | e => 4 | f => 5 | g => 7 | a => 9 | b => 11

def text : Step → String
  | c => "c" | d => "d" | e => "e" | f => "f" | g => "g" | a => "a" | b => "b"

/-- The step reached from `c` by going up `n` steps, or down when `n` is negative. -/
def ofIndex (n : Int) : Step :=
  match (n % 7).toNat with
  | 0 => c | 1 => d | 2 => e | 3 => f | 4 => g | 5 => a | _ => b

end Step

inductive Alteration where
  | doubleFlat | flat | natural | sharp | doubleSharp
  deriving DecidableEq, Repr

namespace Alteration

def semitones : Alteration → Int
  | doubleFlat => -2 | flat => -1 | natural => 0 | sharp => 1 | doubleSharp => 2

/-- The alteration of so many semitones, or the nearest there is. -/
def nearest (n : Int) : Alteration :=
  if n ≤ -2 then doubleFlat
  else if n = -1 then flat
  else if n = 0 then natural
  else if n = 1 then sharp
  else doubleSharp

theorem nearest_semitones (x : Alteration) : nearest x.semitones = x := by
  cases x <;> decide

end Alteration

structure NoteName where
  step : Step
  alteration : Alteration
  deriving DecidableEq, Repr

namespace NoteName

/-- Semitones above the `c` below, without regard to the octave. -/
def semitone (name : NoteName) : Int :=
  name.step.semitone + name.alteration.semitones

/-- Whether a flat on this step is written without its vowel. -/
def elides (step : Step) : Bool :=
  step = .e || step = .a

def text (name : NoteName) : String :=
  name.step.text ++
    match name.alteration with
    | .natural => ""
    | .sharp => "is"
    | .doubleSharp => "isis"
    | .flat => if elides name.step then "s" else "es"
    | .doubleFlat => if elides name.step then "ses" else "eses"

end NoteName

end Scorebook
