/-!
# Occurrences

Whether one text stands somewhere inside another.
-/

namespace Scorebook.Text

/-- Whether `needle` stands in a row of characters. -/
def occursIn (needle : List Char) : List Char → Bool
  | [] => needle.isEmpty
  | c :: cs => needle.isPrefixOf (c :: cs) || occursIn needle cs

/-- Whether a text that is not empty stands in another. -/
def mentions (s needle : String) : Bool :=
  needle ≠ "" && occursIn needle.toList s.toList

theorem occursIn_iff {needle cs : List Char} :
    occursIn needle cs = true ↔ ∃ before after, cs = before ++ needle ++ after := by
  induction cs with
  | nil =>
    simp only [occursIn, List.isEmpty_iff]
    constructor
    · rintro rfl; exact ⟨[], [], rfl⟩
    · rintro ⟨before, after, h⟩
      have := congrArg List.length h
      simp only [List.length_append, List.length_nil] at this
      exact List.eq_nil_of_length_eq_zero (by omega)
  | cons c cs ih =>
    simp only [occursIn, Bool.or_eq_true, List.isPrefixOf_iff_prefix, ih]
    constructor
    · rintro (⟨after, h⟩ | ⟨before, after, h⟩)
      · exact ⟨[], after, h.symm⟩
      · exact ⟨c :: before, after, by simp [h]⟩
    · rintro ⟨before, after, h⟩
      cases before with
      | nil => exact .inl ⟨after, h.symm⟩
      | cons b before =>
        simp only [List.cons_append, List.cons.injEq] at h
        exact .inr ⟨before, after, h.2⟩

end Scorebook.Text
