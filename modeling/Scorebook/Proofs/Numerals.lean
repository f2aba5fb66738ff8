import Mathlib.Data.List.TakeWhile
import Mathlib.Data.Rat.Lemmas
import Scorebook.Proofs.Source.Token
import Scorebook.Text.Numeral

/-!
# What numerals are

A numeral of 32 bits is a run of digits, with or without a plus sign in front, whose value in base
ten fits. A fraction is a numeral, or two of them around a slash, of which the second is not zero.
The readers accept these texts and no others, with these values (`readUInt32_eq_some_iff`,
`readFraction_eq_some_iff`), and the value of a fraction still fits in lowest terms.
-/

namespace Scorebook.Text

/-! ## Numerals -/

/-- The text is a numeral of this value. -/
structure IsNumeral (s : String) (n : Nat) : Prop where
  digits : ∃ digits : List Char, (s.toList = digits ∨ s.toList = '+' :: digits) ∧ digits ≠ [] ∧
    (∀ c ∈ digits, c.isDigit = true) ∧ n = Nat.ofDigitChars 10 digits 0
  lt : n < UInt32.size

theorem readDigits_eq_some_iff {cs : List Char} {n : Nat} :
    readDigits cs = some n ↔
      cs ≠ [] ∧ (∀ c ∈ cs, c.isDigit = true) ∧ n = Nat.ofDigitChars 10 cs 0 := by
  have hvalue : digitsValue cs = Nat.ofDigitChars 10 cs 0 := rfl
  rw [readDigits, hvalue, Option.ite_none_right_eq_some, Option.some.injEq, List.all_eq_true,
    and_assoc, eq_comm (a := n)]

/-- **Numerals are read as their values**, and nothing else is read. -/
theorem readUInt32_eq_some_iff {s : String} {n : Nat} :
    readUInt32 s = some n ↔ IsNumeral s n := by
  have hplus : ('+').isDigit = false := rfl
  unfold readUInt32 readBelow
  rw [Option.filter_eq_some_iff, decide_eq_true_eq]
  constructor
  · rintro ⟨hread, hlt⟩
    refine ⟨?_, hlt⟩
    split at hread
    · next cs heq => exact ⟨cs, .inr heq, readDigits_eq_some_iff.1 hread⟩
    · exact ⟨s.toList, .inl rfl, readDigits_eq_some_iff.1 hread⟩
  · rintro ⟨⟨digits, hs, hdigits⟩, hlt⟩
    refine ⟨?_, hlt⟩
    rcases hs with hs | hs
    · rw [hs]
      split
      · next cs =>
        have := hdigits.2.1 '+' List.mem_cons_self
        rw [hplus] at this
        cases this
      · exact readDigits_eq_some_iff.2 hdigits
    · rw [hs]
      exact readDigits_eq_some_iff.2 hdigits

namespace IsNumeral

variable {s : String} {n : Nat}

theorem slash_not_mem (h : IsNumeral s n) : '/' ∉ s.toList := by
  obtain ⟨digits, hs, -, hdigits, -⟩ := h.digits
  have hslash : '/' ∉ digits := fun hmem => absurd (hdigits _ hmem) (by decide)
  rcases hs with hs | hs <;> simp [hs, hslash]

end IsNumeral

/-! ## Fractions -/

/-- The text is a fraction of this value. -/
inductive IsFraction (s : String) : Rat → Prop
  | whole {n : Nat} (h : IsNumeral s n) : IsFraction s n
  | quotient {p q : String} {n d : Nat} (split : s = p ++ "/" ++ q) (numerator : IsNumeral p n)
      (denominator : IsNumeral q d) (ne : d ≠ 0) : IsFraction s (n / d)

/-- Around the first slash. -/
theorem readFraction_append {p q : String} (hp : '/' ∉ p.toList) :
    readFraction (p ++ "/" ++ q) = (readUInt32 p).bind fun n => (readUInt32 q).bind fun d =>
      if d = 0 then none else some (mkRat n d) := by
  have hlist : (p ++ "/" ++ q).toList = p.toList ++ '/' :: q.toList := by
    simp [String.toList_append]
  have hcs : ∀ c ∈ p.toList, decide (c ≠ '/') = true := by
    intro c hc
    exact decide_eq_true fun heq => hp (heq ▸ hc)
  have hstops : Source.Stops (fun c => decide (c ≠ '/')) ('/' :: q.toList) :=
    Source.stops_cons (by decide) _
  unfold readFraction
  rw [hlist, Source.takeWhile_append_stops hcs hstops, Source.dropWhile_append_stops hcs hstops]
  simp only [String.ofList_toList]
  rfl

theorem readFraction_of_not_mem {s : String} (hs : '/' ∉ s.toList) :
    readFraction s = (readUInt32 s).map fun (n : Nat) => (n : Rat) := by
  have hcs : ∀ c ∈ s.toList, decide (c ≠ '/') = true := by
    intro c hc
    exact decide_eq_true fun heq => hs (heq ▸ hc)
  unfold readFraction
  rw [List.takeWhile_eq_self_iff.2 hcs, List.dropWhile_eq_nil_iff.2 hcs]
  simp [Rat.mkRat_eq_div]

/-- **Fractions are read as their values**, and nothing else is read. -/
theorem readFraction_eq_some_iff {s : String} {l : Rat} :
    readFraction s = some l ↔ IsFraction s l := by
  constructor
  · intro h
    by_cases hs : '/' ∈ s.toList
    · obtain ⟨p, q, hsplit, hp⟩ := List.eq_append_cons_of_mem hs
      have heq : s = String.ofList p ++ "/" ++ String.ofList q := by
        rw [← String.toList_inj, hsplit]
        simp [String.toList_append]
      rw [heq, readFraction_append (by simpa using hp)] at h
      obtain ⟨n, hn, h⟩ := Option.bind_eq_some_iff.1 h
      obtain ⟨d, hd, h⟩ := Option.bind_eq_some_iff.1 h
      obtain ⟨hne, h⟩ := Option.ite_none_left_eq_some.1 h
      obtain rfl := Option.some.inj h
      rw [Rat.mkRat_eq_div]
      exact .quotient heq (readUInt32_eq_some_iff.1 hn) (readUInt32_eq_some_iff.1 hd) hne
    · rw [readFraction_of_not_mem hs] at h
      obtain ⟨n, hn, rfl⟩ := Option.map_eq_some_iff.1 h
      exact .whole (readUInt32_eq_some_iff.1 hn)
  · intro h
    cases h with
    | whole h =>
      rw [readFraction_of_not_mem h.slash_not_mem, readUInt32_eq_some_iff.2 h]
      rfl
    | quotient split numerator denominator ne =>
      rw [split, readFraction_append numerator.slash_not_mem, readUInt32_eq_some_iff.2 numerator,
        readUInt32_eq_some_iff.2 denominator, Option.bind_some, Option.bind_some, if_neg ne,
        Rat.mkRat_eq_div]
      rfl

instance (s : String) (l : Rat) : Decidable (IsFraction s l) :=
  decidable_of_iff _ readFraction_eq_some_iff

/-- Numerator and denominator of the value fit, since reducing a fraction makes neither greater. -/
theorem IsFraction.bounds {s : String} {l : Rat} (h : IsFraction s l) :
    l.num < UInt32.size ∧ l.den < UInt32.size := by
  cases h with
  | whole h => exact ⟨Int.ofNat_lt.2 h.lt, by simp [UInt32.size]⟩
  | @quotient p q n d _ numerator denominator ne =>
    have hdiv : Rat.divInt n d = (n : Rat) / d := Rat.divInt_eq_div n d
    have hnum : ((n : Rat) / d).num ∣ n := hdiv ▸ Rat.num_dvd n (Int.natCast_ne_zero.2 ne)
    have hden : ((n : Rat) / d).den ∣ d := Int.natCast_dvd_natCast.1 (hdiv ▸ Rat.den_dvd n d)
    refine ⟨?_, (Nat.le_of_dvd (Nat.pos_of_ne_zero ne) hden).trans_lt denominator.lt⟩
    rcases Nat.eq_zero_or_pos n with rfl | hn
    · simp [UInt32.size]
    · exact (Int.le_of_dvd (Int.natCast_pos.2 hn) hnum).trans_lt (Int.ofNat_lt.2 numerator.lt)

end Scorebook.Text
