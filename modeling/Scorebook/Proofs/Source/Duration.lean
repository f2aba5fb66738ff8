import Mathlib.Algebra.Order.Field.Rat
import Mathlib.Data.Rat.Lemmas
import Mathlib.Tactic.FieldSimp
import Mathlib.Tactic.Linarith
import Mathlib.Tactic.Ring
import Scorebook.Duration.Basic
import Scorebook.Proofs.Source.Token

/-!
# Reading durations

Behind its notes, a sounding token tells how long it sounds: a base value, any number of dots, and
at most one multiplier, which is a fraction or a whole number. The reader goes as far as each of the
three goes, and what follows must not carry the duration on. So a second multiplier, or dots behind
a multiplier, make no duration at all.

A duration is read as its length (`readDuration_text`). With more dots behind it, it is read as what
these dots make of its length exactly where it has no dots and no multiplier of its own
(`readDuration_dotted_iff`): dots behind dots count on from those, and dots behind a multiplier are
no duration.
-/

namespace Scorebook

namespace Source

/-! ## The reader -/

/-- The character cannot follow a duration: it would make it another one. -/
def carriesOn (c : Char) : Bool :=
  c.isAlphanum || c = '.' || c = '*' || c = '/'

/-- The letters of a command, or else the digits, that a text starts with. -/
def headWord : List Char → List Char
  | '\\' :: cs => '\\' :: cs.takeWhile Char.isAlpha
  | cs => cs.takeWhile Char.isDigit

/-- The base value that a text starts with. -/
def readHead (cs : List Char) : Option NoteHead :=
  NoteHead.all.find? fun head => head.text.toList = headWord cs

/-- A whole number, and what follows it. -/
def readNumber (cs : List Char) : Option (Nat × List Char) :=
  let digits := cs.takeWhile Char.isDigit
  if digits = [] then none else some (Nat.ofDigitChars 10 digits 0, cs.dropWhile Char.isDigit)

/-- What stands behind the star of a multiplier, and what follows it. -/
def readFactor (cs : List Char) : Option (Rat × List Char) := do
  let (n, rest) ← readNumber cs
  match rest with
  | '/' :: rest =>
    let (d, rest) ← readNumber rest
    if d = 0 then none else some (mkRat n d, rest)
  | rest => some (n, rest)

/-- A multiplier, which is one where none stands. -/
def readMultiplier : List Char → Option (Rat × List Char)
  | '*' :: cs => readFactor cs
  | cs => some (1, cs)

/-- The length, in whole notes, of the duration that a text starts with. -/
def readDuration (cs : List Char) : Option Rat := do
  let head ← readHead cs
  let behind := cs.drop (headWord cs).length
  let dots := (behind.takeWhile (· = '.')).length
  let (factor, rest) ← readMultiplier (behind.dropWhile (· = '.'))
  if rest.head?.any carriesOn then none else some (NoteValue.length ⟨head, dots⟩ * factor)

example : readDuration "2..\\fermata".toList = some (mkRat 7 8) := by decide +kernel

example : readDuration "1*9/8.".toList = none := by decide +kernel

/-! ## Numbers and multipliers -/

variable {rest : List Char}

theorem readNumber_toString (n : Nat) (h : Stops Char.isDigit rest) :
    readNumber ((toString n).toList ++ rest) = some (n, rest) := by
  have hdigits : (toString n).toList = Nat.toDigits 10 n := Nat.toList_repr
  have hall : ∀ c ∈ Nat.toDigits 10 n, c.isDigit = true :=
    fun c hc => Nat.isDigit_of_mem_toDigits (by decide) (by decide) hc
  rw [hdigits, readNumber, takeWhile_append_stops hall h, dropWhile_append_stops hall h,
    if_neg Nat.toDigits_ne_nil, Nat.ofDigitChars_toDigits (by decide) (by decide)]

theorem readFactor_lengthText {l : Rat} (hl : 0 < l)
    (h : Stops (fun c => c.isDigit || c = '/') rest) :
    readFactor ((lengthText l).toList ++ rest) = some (l, rest) := by
  obtain ⟨n, hn⟩ : ∃ n : Nat, l.num = n := Int.eq_ofNat_of_zero_le (Rat.num_pos.2 hl).le
  have hdigit : Stops Char.isDigit rest := h.imp fun c hc => by simp [hc]
  have htext : toString (n : Int) = toString n := rfl
  rw [lengthText, hn, htext]
  split_ifs with hden
  · have hvalue : (n : Rat) = l := by
      rw [← Rat.mkRat_self l, hn, hden]
      simp [Rat.mkRat_eq_div]
    have hslash : ∀ more, rest ≠ '/' :: more := by
      rintro more rfl
      cases h '/' rfl
    rw [readFactor, readNumber_toString n hdigit]
    simp only [Option.bind_eq_bind, Option.bind_some]
    rw [hvalue]
  · have hlist : (toString n ++ "/" ++ toString l.den).toList ++ rest =
        (toString n).toList ++ '/' :: ((toString l.den).toList ++ rest) := by
      simp [String.toList_append]
    have hvalue : mkRat n l.den = l := by rw [← hn, Rat.mkRat_self]
    rw [hlist, readFactor, readNumber_toString n (stops_cons (by decide) _)]
    simp only [Option.bind_eq_bind, Option.bind_some]
    rw [readNumber_toString _ hdigit, Option.bind_some, if_neg l.den_nz, hvalue]

/-! ## Note values -/

theorem readHead_text (head : NoteHead) (h : Stops Char.isAlphanum rest) :
    headWord (head.text.toList ++ rest) = head.text.toList ∧
      readHead (head.text.toList ++ rest) = some head := by
  have hword : headWord (head.text.toList ++ rest) = head.text.toList := by
    have hletters (word : List Char) (hword : word.all Char.isAlpha = true) :
        headWord ('\\' :: word ++ rest) = '\\' :: word := by
      rw [List.cons_append, headWord, takeWhile_append_stops (List.all_eq_true.1 hword)]
      exact h.imp fun c hc => by simp [Char.isAlphanum, hc]
    have hdigits (c : Char) (word : List Char) (hc : c ≠ '\\')
        (hword : (c :: word).all Char.isDigit = true) :
        headWord (c :: word ++ rest) = c :: word := by
      rw [List.cons_append, headWord, ← List.cons_append,
        takeWhile_append_stops (List.all_eq_true.1 hword)]
      · exact h.imp fun c hc => by simp [Char.isAlphanum, hc]
      · rintro cs heq
        exact hc (List.cons.inj heq).1
    cases head with
    | longa => exact hletters "longa".toList (by decide)
    | breve => exact hletters "breve".toList (by decide)
    | whole => exact hdigits '1' [] (by decide) (by decide)
    | half => exact hdigits '2' [] (by decide) (by decide)
    | quarter => exact hdigits '4' [] (by decide) (by decide)
    | eighth => exact hdigits '8' [] (by decide) (by decide)
    | sixteenth => exact hdigits '1' ['6'] (by decide) (by decide)
    | thirtySecond => exact hdigits '3' ['2'] (by decide) (by decide)
    | sixtyFourth => exact hdigits '6' ['4'] (by decide) (by decide)
    | hundredTwentyEighth => exact hdigits '1' ['2', '8'] (by decide) (by decide)
  refine ⟨hword, ?_⟩
  rw [readHead, hword]
  cases head <;> rfl

theorem toList_dotsText (dots : Nat) : (dotsText dots).toList = List.replicate dots '.' := by
  simp [dotsText, toList_pushn]

/-- A base value and dots are read as far as they go. -/
theorem readDuration_append (head : NoteHead) (dots : Nat) {rest : List Char}
    (h : Stops (fun c => c.isAlphanum || c = '.') rest) :
    readDuration (head.text.toList ++ List.replicate dots '.' ++ rest) =
      (readMultiplier rest).bind fun (factor, rest) =>
        if rest.head?.any carriesOn then none
        else some (NoteValue.length ⟨head, dots⟩ * factor) := by
  have hword := @readHead_text (List.replicate dots '.' ++ rest) head
    ((stops_replicate (by decide) dots).append (h.imp fun c hc => by simp [hc]))
  have hdots : ∀ c ∈ List.replicate dots '.', decide (c = '.') = true := by
    simp +contextual
  have hrest : Stops (fun c => decide (c = '.')) rest := h.imp fun c hc => by simp_all
  rw [List.append_assoc, readDuration, hword.1, hword.2, List.drop_left]
  simp only [Option.bind_eq_bind, Option.bind_some]
  rw [takeWhile_append_stops hdots hrest, dropWhile_append_stops hdots hrest,
    List.length_replicate]

/-- **A note value is read as its length.** -/
theorem readDuration_noteValue (v : NoteValue) (h : Stops carriesOn rest) :
    readDuration (v.text.toList ++ rest) = some v.length := by
  have hone : readMultiplier rest = some (1, rest) := by
    unfold readMultiplier
    split
    · next cs => cases h '*' rfl
    · rfl
  have hany : rest.head?.any carriesOn = false := by
    cases rest with
    | nil => rfl
    | cons c rest => exact h c rfl
  rw [NoteValue.text, String.toList_append, toList_dotsText, readDuration_append, hone,
    Option.bind_some]
  · simp [hany]
  · exact h.imp fun c hc => by
      simp only [carriesOn, Bool.or_eq_true] at hc ⊢
      exact .inl (.inl hc)

/-- A stretched duration is read as its length unless something carries it on. -/
theorem readDuration_stretched {l : Rat} (hl : 0 < l)
    (h : Stops (fun c => c.isDigit || c = '/') rest) :
    readDuration ((Duration.stretched l).text.toList ++ rest) =
      if rest.head?.any carriesOn then none else some l := by
  have hlist : (Duration.stretched l).text.toList ++ rest =
      NoteHead.whole.text.toList ++ List.replicate 0 '.' ++
        ('*' :: ((lengthText l).toList ++ rest)) := by
    simp [Duration.text, NoteHead.text]
  have hwhole : NoteValue.length ⟨.whole, 0⟩ = 1 := by decide +kernel
  rw [hlist, readDuration_append _ _ (stops_cons (by decide) _), readMultiplier,
    readFactor_lengthText hl h, Option.bind_some]
  simp only [hwhole, one_mul]

end Source

/-! ## Dots -/

/-- What dots make of a length. -/
def dotFactor (dots : Nat) : Rat :=
  2 - mkRat 1 (Nat.pow 2 dots)

theorem dotFactor_eq (dots : Nat) : dotFactor dots = 2 - (1 / 2) ^ dots := by
  have hpow : Nat.pow 2 dots = 2 ^ dots := rfl
  rw [dotFactor, hpow, Rat.mkRat_eq_div]
  simp

theorem dotFactor_zero : dotFactor 0 = 1 := by decide +kernel

/-- Dots that are added up make less of a length than dots that are put on dots. -/
theorem dotFactor_add_eq_iff (k dots : Nat) :
    dotFactor (k + dots) = dotFactor k * dotFactor dots ↔ k = 0 ∨ dots = 0 := by
  have hone (n : Nat) : (1 / 2 : Rat) ^ n = 1 ↔ n = 0 := by
    constructor
    · intro h
      by_contra hn
      exact (pow_lt_one₀ (by norm_num) (by norm_num : (1 / 2 : Rat) < 1) hn).ne h
    · rintro rfl
      exact pow_zero _
  rw [← hone k, ← hone dots]
  simp only [dotFactor_eq, pow_add]
  generalize (1 / 2 : Rat) ^ k = x
  generalize (1 / 2 : Rat) ^ dots = y
  constructor
  · intro h
    have hfactors : (x - 1) * (y - 1) = 0 := by linarith
    rcases mul_eq_zero.1 hfactors with hx | hy
    · exact .inl (by linarith)
    · exact .inr (by linarith)
  · rintro (rfl | rfl) <;> ring

namespace NoteHead

theorem length_pos (head : NoteHead) : 0 < head.length := by
  cases head <;> decide +kernel

/-- An undotted value comes first among the values of its length. -/
theorem ofLength?_length (head : NoteHead) :
    NoteValue.ofLength? head.length = some ⟨head, 0⟩ := by
  cases head <;> decide +kernel

end NoteHead

theorem NoteValue.length_pos (v : NoteValue) : 0 < v.length := by
  have hdots : 0 < dotFactor v.dots := by
    rw [dotFactor_eq]
    have := pow_le_one₀ (n := v.dots) (by norm_num : (0 : Rat) ≤ 1 / 2) (by norm_num)
    linarith
  exact mul_pos v.head.length_pos hdots

theorem NoteValue.length_of_ofLength? {l : Rat} {v : NoteValue} (h : ofLength? l = some v) :
    v.length = l := by
  unfold ofLength? at h
  simpa using List.find?_some h

namespace Duration

/-- The duration has neither dots nor a multiplier. -/
def IsUndotted (d : Duration) : Prop :=
  ∃ head, d = value ⟨head, 0⟩

theorem ofLength?_eq_some {l : Rat} {d : Duration} (h : ofLength? l = some d) :
    d.length = l ∧ 0 < l := by
  unfold ofLength? at h
  split_ifs at h with hl
  refine ⟨?_, Rat.not_le.1 hl⟩
  cases hv : NoteValue.ofLength? l with
  | none =>
    rw [hv] at h
    cases h
    rfl
  | some v =>
    rw [hv] at h
    cases h
    exact NoteValue.length_of_ofLength? hv

/-- Lengths of undotted values are written without dots and multipliers. -/
theorem isUndotted_iff_of_ofLength? {l : Rat} {d : Duration} (h : ofLength? l = some d) :
    d.IsUndotted ↔ ∃ head : NoteHead, l = head.length := by
  constructor
  · rintro ⟨head, rfl⟩
    refine ⟨head, ?_⟩
    rw [← (ofLength?_eq_some h).1]
    show head.length * dotFactor 0 = head.length
    rw [dotFactor_zero, mul_one]
  · rintro ⟨head, rfl⟩
    rw [ofLength?, if_neg (Rat.not_le.2 head.length_pos), head.ofLength?_length] at h
    cases h
    exact ⟨head, rfl⟩

open Source in
/-- **A duration is read as its length.** -/
theorem readDuration_text {d : Duration} (hd : 0 < d.length) {rest : List Char}
    (h : Stops carriesOn rest) : readDuration (d.text.toList ++ rest) = some d.length := by
  cases d with
  | value v => exact readDuration_noteValue v h
  | stretched l =>
    have hany : rest.head?.any carriesOn = false := by
      cases rest with
      | nil => rfl
      | cons c rest => exact h c rfl
    have hl : 0 < l := hd
    rw [readDuration_stretched hl, hany]
    · rfl
    · exact h.imp fun c hc => by
        simp only [carriesOn, Char.isAlphanum, Bool.or_eq_true] at hc ⊢
        rcases hc with hc | hc
        · exact .inl (.inl (.inl (.inr hc)))
        · exact .inr hc

open Source in
/-- **Dots behind a duration** are read as dots on it exactly where it has none of its own. -/
theorem readDuration_dotted_iff {d : Duration} (hd : 0 < d.length) (dots : Nat) {rest : List Char}
    (h : Stops carriesOn rest) :
    readDuration (d.text.toList ++ List.replicate dots '.' ++ rest) =
      some (d.length * dotFactor dots) ↔ dots = 0 ∨ d.IsUndotted := by
  cases d with
  | value v =>
    obtain ⟨head, k⟩ := v
    have hlist : (value ⟨head, k⟩).text.toList ++ List.replicate dots '.' =
        (NoteValue.text ⟨head, k + dots⟩).toList := by
      rw [text, NoteValue.text, NoteValue.text, String.toList_append, String.toList_append,
        toList_dotsText, toList_dotsText, List.append_assoc, List.replicate_append_replicate]
    have hundotted : (value ⟨head, k⟩).IsUndotted ↔ k = 0 := by simp [IsUndotted]
    rw [hlist, readDuration_noteValue _ h, hundotted, Option.some.injEq, or_comm,
      ← dotFactor_add_eq_iff]
    show head.length * dotFactor (k + dots) = head.length * dotFactor k * dotFactor dots ↔ _
    rw [mul_assoc, mul_right_inj' head.length_pos.ne']
  | stretched l =>
    have hundotted : ¬(stretched l).IsUndotted := by
      rintro ⟨head, hhead⟩
      cases hhead
    rw [or_iff_left hundotted]
    cases dots with
    | zero =>
      rw [dotFactor_zero, mul_one, List.replicate_zero, List.append_nil]
      exact iff_of_true (readDuration_text hd h) rfl
    | succ dots =>
      have hl : 0 < l := hd
      rw [List.append_assoc, readDuration_stretched hl]
      · simp [List.replicate_succ, carriesOn]
      · exact stops_cons (by decide) _

end Duration

end Scorebook
