import Mathlib.Tactic.SplitIfs
import Scorebook.Pitch.Transposition
import Scorebook.Proofs.Source.Pitch

/-!
# Where a transposing instrument sounds

An interval of `diatonic` steps and `chromatic` semitones should lead from middle C to the pitch
with that letter and that height. Its whole octaves are taken off twice, from the steps by sevens
and from the semitones by twelves, and only those of the steps come back as octave marks.

The letter and the octave are right for every interval (`Pitch.sounding?_eq_some`). The height is
right exactly if both counts have as many whole octaves. An interval of seven steps and eleven
semitones, for one, is an octave less a semitone. Its steps have a whole octave and its semitones
have none, so eleven semitones are left for no step at all, and two sharps are written for them.

Main result: `Pitch.sounding?_exact_iff`.
-/

namespace Scorebook

/-! ## Steps and octaves -/

/-- Whole multiples are taken off towards zero. -/
theorem tdiv_bounds (n : Int) {k : Int} (hk : 0 < k) :
    (0 ≤ n ∧ k * n.tdiv k ≤ n ∧ n < k * n.tdiv k + k) ∨
      (n < 0 ∧ n ≤ k * n.tdiv k ∧ k * n.tdiv k < n + k) := by
  have hsplit := Int.mul_tdiv_add_tmod n k
  by_cases hn : 0 ≤ n
  · have hlow := Int.tmod_nonneg k hn
    have hhigh := Int.tmod_lt_of_pos n hk
    omega
  · have hlow := Int.lt_tmod_of_pos n hk
    have hhigh := Int.tmod_nonneg k (a := -n) (by omega)
    rw [Int.neg_tmod] at hhigh
    omega

theorem Step.ofIndex_tmod (n : Int) : ofIndex (n.tmod 7) = ofIndex n := by
  have hmod : n.tmod 7 % 7 = n % 7 := by
    have hsplit := Int.mul_tdiv_add_tmod n 7
    omega
  rw [ofIndex, ofIndex, hmod]

/-- A step covers no more than two semitones. -/
theorem Step.semitone_ofIndex_bounds (n : Int) :
    0 ≤ (ofIndex n).semitone ∧ (ofIndex n).semitone < 12 ∧ (ofIndex n).semitone ≤ 2 * (n % 7) := by
  obtain h | h | h | h | h | h | h : n % 7 = 0 ∨ n % 7 = 1 ∨ n % 7 = 2 ∨ n % 7 = 3 ∨ n % 7 = 4 ∨
    n % 7 = 5 ∨ n % 7 = 6 := by omega
  all_goals rw [ofIndex, h]; decide

/-- Without its whole octaves a way along the scale is shorter by them. -/
theorem scaleDistance_tmod (n : Int) :
    scaleDistance (n.tmod 7) = scaleDistance n - 12 * n.tdiv 7 := by
  have hsplit := Int.mul_tdiv_add_tmod n 7
  rw [scaleDistance, scaleDistance, Step.ofIndex_tmod]
  omega

theorem Alteration.semitones_nearest (n : Int) : (nearest n).semitones = max (-2) (min 2 n) := by
  unfold nearest
  split_ifs <;> simp only [semitones] <;> omega

namespace Pitch

variable {diatonic chromatic : Int} {p : Pitch}

/-! ## What is written for an interval -/

/-- The letter is that of the steps, and the octave is theirs. What the semitones leave over decides
the alteration, with the whole octaves of both counts told apart. -/
theorem sounding?_eq_some (h : sounding? diatonic chromatic = some p) :
    p.name.step = Step.ofIndex diatonic ∧ p.octave = diatonic / 7 ∧
      p.name.alteration = .nearest (chromatic - scaleDistance diatonic +
        12 * (diatonic.tdiv 7 - chromatic.tdiv 12)) := by
  unfold sounding? at h
  dsimp only at h
  split_ifs at h
  cases h
  have hsteps := Int.mul_tdiv_add_tmod diatonic 7
  have hsemitones := Int.mul_tdiv_add_tmod chromatic 12
  refine ⟨Step.ofIndex_tmod diatonic, ?_, ?_⟩
  · dsimp only
    omega
  · dsimp only
    rw [scaleDistance_tmod]
    congr 1
    omega

/-! ## Heights -/

/-- The interval needs no more than a double accidental. -/
def Spellable (diatonic chromatic : Int) : Prop :=
  (chromatic - scaleDistance diatonic).natAbs ≤ 2

/-- There are as many marks as the octave of the pitch needs. -/
def InReach (diatonic : Int) : Prop :=
  (diatonic / 7 + 1).natAbs ≤ maxOctaveMarks

instance : Decidable (Spellable diatonic chromatic) :=
  inferInstanceAs (Decidable (_ ≤ _))

instance : Decidable (InReach diatonic) :=
  inferInstanceAs (Decidable (_ ≤ _))

/-- Where the semitones have fewer whole octaves than the steps, they do not go beyond the scale by
two, and where they have more, they do not fall behind it by two. -/
theorem sub_scaleDistance_bounds (diatonic chromatic : Int) :
    (chromatic.tdiv 12 < diatonic.tdiv 7 → chromatic - scaleDistance diatonic < 2) ∧
      (diatonic.tdiv 7 < chromatic.tdiv 12 → -2 < chromatic - scaleDistance diatonic) := by
  have hsemitone := Step.semitone_ofIndex_bounds diatonic
  have hsteps := tdiv_bounds diatonic (k := 7) (by decide)
  have hsemitones := tdiv_bounds chromatic (k := 12) (by decide)
  unfold scaleDistance
  constructor
  · intro hfewer
    omega
  · intro hmore
    omega

/-- **A spellable interval is written as a pitch with its letter, and this pitch has its height
exactly if its steps and its semitones have as many whole octaves.** -/
theorem sounding?_exact_iff (hspell : Spellable diatonic chromatic) (hreach : InReach diatonic)
    (h : sounding? diatonic chromatic = some p) :
    ∃ height, Source.readPitch p.text = some (Step.ofIndex diatonic, height) ∧
      (height = 60 + chromatic ↔ chromatic.tdiv 12 = diatonic.tdiv 7) := by
  obtain ⟨hstep, hoctave, halteration⟩ := sounding?_eq_some h
  have hmarks : writtenOctaves p.octave = diatonic / 7 + 1 := by
    unfold InReach at hreach
    rw [writtenOctaves, hoctave]
    omega
  refine ⟨_, by rw [p.readPitch_text, hstep], ?_⟩
  obtain ⟨hbelow, habove⟩ := sub_scaleDistance_bounds diatonic chromatic
  have hdistance : 12 * (diatonic / 7) + (Step.ofIndex diatonic).semitone =
      scaleDistance diatonic := rfl
  unfold Spellable at hspell
  rw [hmarks, NoteName.semitone, hstep, halteration, Alteration.semitones_nearest]
  omega

theorem sounding?_tenorSaxophone : Spellable (-8) (-14) ∧ InReach (-8) ∧
    (∃ p, sounding? (-8) (-14) = some p ∧ p.text = "bes," ∧
      ∃ height, Source.readPitch p.text = some (.b, height) ∧ height = 60 - 14) := by
  have hspell : Spellable (-8) (-14) := by decide
  have hreach : InReach (-8) := by decide
  obtain ⟨height, hread, hiff⟩ := sounding?_exact_iff hspell hreach rfl
  exact ⟨hspell, hreach, _, rfl, by decide +kernel, height, hread, hiff.2 (by decide)⟩

/-- An octave less a semitone up leads to 71, but the pitch that is written for it is 74. -/
theorem sounding?_octaveLessSemitone : Spellable 7 11 ∧ InReach 7 ∧
    ∃ p, sounding? 7 11 = some p ∧ p.text = "cisis''" ∧ Source.readPitch p.text = some (.c, 74) ∧
      Source.readPitch "ces''" = some (.c, 60 + 11) :=
  ⟨by decide, by decide, _, rfl, by decide +kernel, by decide +kernel, by decide +kernel⟩

end Pitch

end Scorebook
