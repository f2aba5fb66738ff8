import Scorebook.Pitch.Spelling
import Scorebook.Proofs.Source.Token

/-!
# Reading pitches

A pitch is written in the Dutch manner: the letter of a step, an ending that alters it, and marks
for the octave. The letter and its ending are read as far as letters go, and the marks are all of
one direction. An unmarked `c` is 48 semitones up, and every mark moves by an octave.

A pitch reads as its step and its semitones as long as its octave can be reached by the marks there
are (`readPitch_text`).
-/

namespace Scorebook

namespace Source

/-! ## The reader -/

/-- The step that a letter names. -/
def readStep : Char → Option Step
  | 'c' => some .c
  | 'd' => some .d
  | 'e' => some .e
  | 'f' => some .f
  | 'g' => some .g
  | 'a' => some .a
  | 'b' => some .b
  | _ => none

/-- What may stand behind any letter, with the semitones that it adds. -/
def endings : List (String × Int) :=
  [("", 0), ("is", 1), ("isis", 2), ("es", -1), ("eses", -2)]

/-- What may stand behind `e` and `a` besides. -/
def shortEndings : List (String × Int) :=
  [("s", -1), ("ses", -2)]

/-- The step that a name is made from, and its semitones above the `c` below that step. -/
def readName : List Char → Option (Step × Int)
  | [] => none
  | letter :: ending => do
    let step ← readStep letter
    let known := if letter = 'e' ∨ letter = 'a' then shortEndings ++ endings else endings
    let semitones ← known.lookup (String.ofList ending)
    return (step, step.semitone + semitones)

/-- The octaves that marks of one direction go up, or down for commas. -/
def readMarks (marks : List Char) : Option Int :=
  if marks.all (· = '\'') then some marks.length
  else if marks.all (· = ',') then some (-marks.length)
  else none

/-- The step of a pitch and its semitones. -/
def readPitch (text : String) : Option (Step × Int) := do
  let (step, semitones) ← readName (text.toList.takeWhile Char.isAlpha)
  let octaves ← readMarks (text.toList.dropWhile Char.isAlpha)
  return (step, 48 + 12 * octaves + semitones)

example : readPitch "ases'" = some (.a, 67) := by decide +kernel

example : readPitch "bes'," = none := by decide +kernel

end Source

/-! ## Pitches are read as they are meant -/

open Source

theorem NoteName.readName_text (name : NoteName) :
    readName name.text.toList = some (name.step, name.semitone) := by
  obtain ⟨step, alteration⟩ := name
  cases step <;> cases alteration <;> decide +kernel

theorem NoteName.isAlpha_of_mem_text {name : NoteName} {c : Char} (h : c ∈ name.text.toList) :
    c.isAlpha = true := by
  have hall : name.text.toList.all Char.isAlpha = true := by
    obtain ⟨step, alteration⟩ := name
    cases step <;> cases alteration <;> decide +kernel
  exact List.all_eq_true.1 hall c h

/-- The octaves above the unmarked one that an octave is written with: those there are marks for. -/
def writtenOctaves (octave : Int) : Int :=
  max (-maxOctaveMarks) (min maxOctaveMarks (octave + 1))

theorem toList_octaveMarks (octave : Int) :
    (octaveMarks octave).toList = if 0 ≤ octave
      then List.replicate (min (octave + 1).toNat maxOctaveMarks) '\''
      else List.replicate (min (-octave - 1).toNat maxOctaveMarks) ',' := by
  have hjoin (c : Char) (n : Nat) :
      (String.join (List.replicate n (String.singleton c))).toList = List.replicate n c := by
    induction n with
    | zero => rfl
    | succ n ih =>
      rw [List.replicate_succ, String.join_cons, String.toList_append, ih]
      simp [List.replicate_succ]
  unfold octaveMarks
  split_ifs
  · exact hjoin '\'' _
  · exact hjoin ',' _

theorem readMarks_up (n : Nat) : readMarks (List.replicate n '\'') = some (n : Int) := by
  simp [readMarks]

theorem readMarks_down (n : Nat) : readMarks (List.replicate n ',') = some (-n : Int) := by
  cases n with
  | zero => rfl
  | succ n => simp [readMarks, List.replicate_succ]

theorem readMarks_octaveMarks (octave : Int) :
    readMarks (octaveMarks octave).toList = some (writtenOctaves octave) := by
  rw [toList_octaveMarks, writtenOctaves, maxOctaveMarks]
  split_ifs
  · rw [readMarks_up, Option.some.injEq]
    omega
  · rw [readMarks_down, Option.some.injEq]
    omega

theorem Pitch.readPitch_text (p : Pitch) :
    readPitch p.text =
      some (p.name.step, 48 + 12 * writtenOctaves p.octave + p.name.semitone) := by
  have hname : ∀ c ∈ p.name.text.toList, c.isAlpha = true := fun c => NoteName.isAlpha_of_mem_text
  have hmarks : Stops Char.isAlpha (octaveMarks p.octave).toList := by
    rw [toList_octaveMarks]
    split_ifs <;> exact stops_replicate (by decide) _
  rw [readPitch, text, String.toList_append, takeWhile_append_stops hname hmarks,
    dropWhile_append_stops hname hmarks, NoteName.readName_text, readMarks_octaveMarks]
  rfl

end Scorebook
