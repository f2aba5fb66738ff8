import Mathlib.Tactic.IntervalCases
import Mathlib.Tactic.SplitIfs
import Scorebook.Pitch.Spelling
import Scorebook.Proofs.Source.Pitch
import Scorebook.Proofs.Transposition

/-!
# Heights of spelled pitches

A text denotes a pitch if it is a note name with octave marks of one direction behind it
(`Notates`), and it denotes one pitch at most (`Notates.unique`).

The key decides only which of two names a black key gets, and both have the same height. The octave
is a quotient towards negative infinity, so that pitches below zero belong to the right one, and at
most five marks are written either way. From -12 to 119 the marks suffice. Further out the place in
the octave is right, and the octave is the last one that can be written.

**Arithmetic.** A machine divides towards zero, and its numbers have 32 bits. `spell32?` spells a
pitch in single steps of this arithmetic. None of them leaves the range, and the text is the same
(`Pitch.spell32?_eq`).

Main result: `Pitch.spell_denotes`.
-/

namespace Scorebook

namespace Source

/-! ## Texts that denote pitches -/

/-- Marks of one direction that move by so many octaves. -/
def marksFor (octaves : Int) : List Char :=
  List.replicate octaves.natAbs (if 0 ≤ octaves then '\'' else ',')

/-- The text is a name with marks behind it. -/
def Notates (text : String) (name : NoteName) (octaves : Int) : Prop :=
  text.toList = name.text.toList ++ marksFor octaves

/-- How high a name with marks is; `c` without marks is 48. -/
def height (name : NoteName) (octaves : Int) : Int :=
  48 + 12 * octaves + name.semitone

theorem marksFor_natCast (n : Nat) : marksFor n = List.replicate n '\'' :=
  rfl

theorem marksFor_neg_natCast (n : Nat) : marksFor (-n) = List.replicate n ',' := by
  cases n <;> rfl

theorem readMarks_marksFor (octaves : Int) : readMarks (marksFor octaves) = some octaves := by
  unfold marksFor
  split_ifs with h
  · rw [readMarks_up, Int.natAbs_of_nonneg h]
  · rw [readMarks_down, Option.some.injEq]
    omega

theorem stops_marksFor (octaves : Int) : Stops Char.isAlpha (marksFor octaves) := by
  unfold marksFor
  split_ifs <;> exact stops_replicate (by decide) _

namespace Notates

variable {text : String} {name name' : NoteName} {octaves octaves' : Int}

theorem readPitch_eq (h : Notates text name octaves) :
    readPitch text = some (name.step, height name octaves) := by
  have hname : ∀ c ∈ name.text.toList, c.isAlpha = true := fun c => NoteName.isAlpha_of_mem_text
  rw [readPitch, h, takeWhile_append_stops hname (stops_marksFor octaves),
    dropWhile_append_stops hname (stops_marksFor octaves), NoteName.readName_text,
    readMarks_marksFor]
  rfl

/-- **A text denotes one pitch at most.** -/
theorem unique (h : Notates text name octaves) (h' : Notates text name' octaves') :
    name' = name ∧ octaves' = octaves := by
  obtain ⟨step, alteration⟩ := name
  obtain ⟨step', alteration'⟩ := name'
  have hread := h.readPitch_eq.symm.trans h'.readPitch_eq
  simp only [Option.some.injEq, Prod.mk.injEq, height, NoteName.semitone] at hread
  obtain ⟨rfl, hheight⟩ := hread
  -- Alterations of one step are at most four semitones apart, which is less than an octave.
  have hbounds (x : Alteration) : -2 ≤ x.semitones ∧ x.semitones ≤ 2 := by
    cases x <;> decide
  have hlow := hbounds alteration
  have hhigh := hbounds alteration'
  have hsemitones : alteration'.semitones = alteration.semitones := by omega
  constructor
  · rw [← alteration'.nearest_semitones, hsemitones, alteration.nearest_semitones]
  · omega

end Notates

theorem notates_text (p : Pitch) : Notates p.text p.name (writtenOctaves p.octave) := by
  rw [Notates, Pitch.text, String.toList_append, toList_octaveMarks, ← marksFor_natCast,
    ← marksFor_neg_natCast, ← apply_ite marksFor, writtenOctaves, maxOctaveMarks]
  congr 2
  split_ifs <;> omega

end Source

open Source

/-! ## Names in an octave -/

/-- **Either name of a key is as high as the key.** -/
theorem NoteName.semitone_ofSemitone (flats : List Nat) {n : Nat} (h : n < 12) :
    (ofSemitone flats n).semitone = n := by
  unfold ofSemitone
  interval_cases n <;> dsimp only <;> split_ifs <;> rfl

/-! ## Arithmetic in 32 bits -/

/-- The number, if 32 bits with a sign hold it. -/
def fitSigned32? (n : Int) : Option Int :=
  if -0x80000000 ≤ n ∧ n < 0x80000000 then some n else none

theorem fitSigned32?_eq_some {n : Int} (hlow : -0x80000000 ≤ n) (hhigh : n < 0x80000000) :
    fitSigned32? n = some n :=
  if_pos ⟨hlow, hhigh⟩

/-- The quotient by 12 towards negative infinity and what is left, from those towards zero. -/
def divMod32? (n : Int) : Option (Int × Int) := do
  let quotient ← fitSigned32? (n.tdiv 12)
  let rest ← fitSigned32? (n.tmod 12)
  if rest < 0 then
    let below ← fitSigned32? (quotient - 1)
    let above ← fitSigned32? (rest + 12)
    return (below, above)
  else return (quotient, rest)

/-- Octave marks, the number of them being counted in single steps. -/
def octaveMarks32? (octave : Int) : Option String :=
  if 0 ≤ octave then do
    let n ← fitSigned32? (octave + 1)
    return String.join (List.replicate (min n.toNat maxOctaveMarks) "'")
  else do
    let n ← fitSigned32? (-octave)
    let n ← fitSigned32? (n - 1)
    return String.join (List.replicate (min n.toNat maxOctaveMarks) ",")

/-- The text of a pitch, if every number on the way to it fits. -/
def Pitch.spell32? (key : Option Key) (semitones : Int) : Option String := do
  let (quotient, rest) ← divMod32? semitones
  let octave ← fitSigned32? (quotient - 5)
  let marks ← octaveMarks32? octave
  return (NoteName.ofSemitone (key.getD ⟨0⟩).flats rest.toNat).text ++ marks

theorem divMod32?_eq {n : Int} (hlow : -0x80000000 ≤ n) (hhigh : n < 0x80000000) :
    divMod32? n = some (n / 12, n % 12) := by
  have hsplit := Int.mul_tdiv_add_tmod n 12
  have hbounds := tdiv_bounds n (k := 12) (by decide)
  have hquotient : fitSigned32? (n.tdiv 12) = some (n.tdiv 12) :=
    fitSigned32?_eq_some (by omega) (by omega)
  have hrest : fitSigned32? (n.tmod 12) = some (n.tmod 12) :=
    fitSigned32?_eq_some (by omega) (by omega)
  unfold divMod32?
  rw [hquotient, hrest]
  dsimp only [Option.bind_eq_bind, Option.bind_some]
  split_ifs with hneg
  · have hbelow : fitSigned32? (n.tdiv 12 - 1) = some (n / 12) := by
      rw [fitSigned32?_eq_some (by omega) (by omega), Option.some.injEq]
      omega
    have habove : fitSigned32? (n.tmod 12 + 12) = some (n % 12) := by
      rw [fitSigned32?_eq_some (by omega) (by omega), Option.some.injEq]
      omega
    rw [hbelow, habove]
    rfl
  · have hsame : n.tdiv 12 = n / 12 ∧ n.tmod 12 = n % 12 := by omega
    rw [hsame.1, hsame.2]
    rfl

theorem octaveMarks32?_eq {octave : Int} (hlow : -0x7fffffff ≤ octave)
    (hhigh : octave < 0x7fffffff) : octaveMarks32? octave = some (octaveMarks octave) := by
  unfold octaveMarks32? octaveMarks
  split_ifs with hsign
  · rw [fitSigned32?_eq_some (by omega) (by omega)]
    rfl
  · rw [fitSigned32?_eq_some (by omega) (by omega)]
    dsimp only [Option.bind_eq_bind, Option.bind_some]
    rw [fitSigned32?_eq_some (by omega) (by omega)]
    rfl

namespace Pitch

/-- **No step of the arithmetic leaves its range**, and the text is the same. -/
theorem spell32?_eq (key : Option Key) {semitones : Int} (hlow : -0x80000000 ≤ semitones)
    (hhigh : semitones < 0x80000000) :
    spell32? key semitones = some (spell key semitones).text := by
  have hoctave : fitSigned32? (semitones / 12 - 5) = some (semitones / 12 - 5) :=
    fitSigned32?_eq_some (by omega) (by omega)
  unfold spell32?
  rw [divMod32?_eq hlow hhigh]
  dsimp only [Option.bind_eq_bind, Option.bind_some]
  rw [hoctave]
  dsimp only [Option.bind_some]
  rw [octaveMarks32?_eq (by omega) (by omega)]
  rfl

/-! ## Spelled pitches -/

theorem height_spell (key : Option Key) (semitones : Int) :
    height (spell key semitones).name (writtenOctaves (spell key semitones).octave) =
      12 * max (-1) (min 9 (semitones / 12)) + semitones % 12 := by
  have hplace := NoteName.semitone_ofSemitone (key.getD ⟨0⟩).flats
    (n := (semitones % 12).toNat) (by omega)
  unfold height spell writtenOctaves maxOctaveMarks
  dsimp only
  rw [hplace]
  omega

/-- **A spelled pitch is read in one way, and as high as it is in every key**, up to the octaves
there are marks for; no number on the way to the text needs more than 32 bits. -/
theorem spell_denotes (semitones : Int) :
    ∃ reached, reached = 12 * max (-1) (min 9 (semitones / 12)) + semitones % 12 ∧
      (reached = semitones ↔ -12 ≤ semitones ∧ semitones ≤ 119) ∧
      ∀ key : Option Key,
        (∃ name octaves, height name octaves = reached ∧
          ∀ name' octaves', Notates (spell key semitones).text name' octaves' ↔
            name' = name ∧ octaves' = octaves) ∧
        (-0x80000000 ≤ semitones → semitones < 0x80000000 →
          spell32? key semitones = some (spell key semitones).text) := by
  refine ⟨_, rfl, by omega, fun key => ⟨?_, spell32?_eq key⟩⟩
  have hnotates := notates_text (spell key semitones)
  refine ⟨_, _, height_spell key semitones, fun name octaves => ⟨fun h => hnotates.unique h, ?_⟩⟩
  rintro ⟨rfl, rfl⟩
  exact hnotates

end Pitch

end Scorebook
