import Scorebook.Proofs.Numerals
import Scorebook.Proofs.Source.Duration

/-!
# Lengths of tokens

A document tells a length by a token. There are two kinds of them, and they are told from outside of
the readers (`TokenMeans`): a name is one of ten words, and a fraction is made of numerals. No token
is of both kinds, and any other text tells no length at all (`TellsLength`). The duration that is
written for a token is that of its length, of whichever kind it is (`Duration.ofToken?_eq`).
-/

namespace Scorebook

/-- What a document calls a value. -/
def NoteHead.documentName : NoteHead → String
  | longa => "long"
  | breve => "breve"
  | whole => "whole"
  | half => "half"
  | quarter => "quarter"
  | eighth => "eighth"
  | sixteenth => "16th"
  | thirtySecond => "32nd"
  | sixtyFourth => "64th"
  | hundredTwentyEighth => "128th"

theorem NoteHead.named?_eq_some_iff {s : String} {head : NoteHead} :
    named? s = some head ↔ s = head.documentName := by
  constructor
  · intro h
    unfold named? at h
    split at h <;> cases h <;> rfl
  · rintro rfl
    cases head <;> rfl

/-- The token means this length: its ends cleared of blanks, it is the name of a value or a fraction
that is not zero. -/
inductive TokenMeans (token : String) : Rat → Prop
  | name {head : NoteHead} (h : Text.trim token = head.documentName) : TokenMeans token head.length
  | fraction {l : Rat} (h : Text.IsFraction (Text.trim token) l) (pos : 0 < l) : TokenMeans token l

/-- The length that a token means. -/
def tokenLength? (token : String) : Option Rat :=
  match NoteHead.named? (Text.trim token) with
  | some head => some head.length
  | none => (Text.readFraction (Text.trim token)).filter (0 < ·)

theorem tokenLength?_eq_some_iff {token : String} {l : Rat} :
    tokenLength? token = some l ↔ TokenMeans token l := by
  unfold tokenLength?
  cases hname : NoteHead.named? (Text.trim token) with
  | some head =>
    have heq := NoteHead.named?_eq_some_iff.1 hname
    have hread : Text.readFraction (Text.trim token) = none := by
      rw [heq]
      cases head <;> decide +kernel
    rw [Option.some.injEq]
    constructor
    · rintro rfl
      exact .name heq
    · rintro (h | ⟨h, -⟩)
      · rw [NoteHead.named?_eq_some_iff.2 h, Option.some.injEq] at hname
        rw [hname]
      · rw [Text.readFraction_eq_some_iff.2 h] at hread
        cases hread
  | none =>
    simp only [Option.filter_eq_some_iff, Text.readFraction_eq_some_iff, decide_eq_true_eq]
    constructor
    · rintro ⟨h, hpos⟩
      exact .fraction h hpos
    · rintro (h | ⟨h, hpos⟩)
      · rw [NoteHead.named?_eq_some_iff.2 h] at hname
        cases hname
      · exact ⟨h, hpos⟩

namespace TokenMeans

variable {token : String} {l l' : Rat}

theorem unique (h : TokenMeans token l) (h' : TokenMeans token l') : l = l' := by
  rw [← tokenLength?_eq_some_iff] at h h'
  exact Option.some.inj (h.symm.trans h')

/-- The length is positive, and 32 bits hold its numerator and its denominator. -/
theorem bounds (h : TokenMeans token l) :
    0 < l ∧ l.num < UInt32.size ∧ l.den < UInt32.size := by
  cases h with
  | @name head _ => cases head <;> decide +kernel
  | fraction h pos => exact ⟨pos, h.bounds⟩

end TokenMeans

/-- The duration of a token is that of the length it means. -/
theorem Duration.ofToken?_eq (token : String) :
    ofToken? token = (tokenLength? token).bind ofLength? := by
  unfold ofToken? tokenLength?
  cases NoteHead.named? (Text.trim token) with
  | some head =>
    dsimp only
    rw [Option.bind_some, ofLength?, if_neg (Rat.not_le.2 head.length_pos), head.ofLength?_length]
    rfl
  | none =>
    cases Text.readFraction (Text.trim token) with
    | none => rfl
    | some l =>
      by_cases hl : 0 < l
      · simp [Option.filter, hl]
      · simp [Option.filter, hl, ofLength?, Rat.not_lt.1 hl]

/-- The token means a length. -/
def TellsLength (token : String) : Prop :=
  ∃ l, TokenMeans token l

theorem isSome_tokenLength?_iff {token : String} :
    (tokenLength? token).isSome ↔ TellsLength token := by
  rw [Option.isSome_iff_exists]
  exact exists_congr fun _ => tokenLength?_eq_some_iff

instance (token : String) : Decidable (TellsLength token) :=
  decidable_of_iff _ isSome_tokenLength?_iff

end Scorebook
