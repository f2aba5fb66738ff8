import Scorebook.Proofs.TokenLength

/-!
# Lengths and their durations

A length is written in one way. It is a note value where one with at most two dots has that length,
else a stretched whole note, and either is read back as the length it stands for. So two tokens are
written alike exactly if they mean one length, be it by name or as a fraction.

**Arithmetic.** The values that a length is compared with are worked out in numbers of 32 bits. Even
without reducing a fraction before it is multiplied, no step leaves their range (`length32?_eq`).

Main result: `Duration.resolve_canonical`.
-/

namespace Scorebook

/-! ## Durations of lengths -/

theorem NoteValue.mem_candidates_iff {v : NoteValue} : v ∈ candidates ↔ v.dots ≤ 2 := by
  obtain ⟨head, dots⟩ := v
  simp only [candidates, List.mem_flatMap, NoteHead.mem_all, true_and, List.mem_cons, mk.injEq,
    List.not_mem_nil, or_false]
  constructor
  · rintro ⟨_, ⟨-, rfl⟩ | ⟨-, rfl⟩ | ⟨-, rfl⟩⟩ <;> decide
  · intro h
    refine ⟨head, ?_⟩
    simp only [true_and]
    omega

namespace Duration

/-- The duration stands for the length: it is read as it, and has a multiplier only if no value with
at most two dots has this length. -/
structure WrittenFor (d : Duration) (l : Rat) : Prop where
  read : Source.readDuration d.text.toList = some l
  star_iff : '*' ∈ d.text.toList ↔ ∀ v : NoteValue, v.dots ≤ 2 → v.length ≠ l

theorem star_mem_text_iff (d : Duration) : '*' ∈ d.text.toList ↔ ∃ l, d = stretched l := by
  cases d with
  | value v =>
    have hstar : '*' ∉ v.text.toList := by
      rw [NoteValue.text, String.toList_append, Source.toList_dotsText, List.mem_append, not_or]
      refine ⟨?_, fun h => absurd (List.eq_of_mem_replicate h) (by decide)⟩
      cases v.head <;> decide
    exact iff_of_false hstar (by simp)
  | stretched l => simp [text]

/-- **A positive length has a duration, which stands for it.** -/
theorem exists_ofLength? {l : Rat} (hl : 0 < l) : ∃ d, ofLength? l = some d ∧ d.WrittenFor l := by
  have hnone : NoteValue.ofLength? l = none ↔ ∀ v : NoteValue, v.dots ≤ 2 → v.length ≠ l := by
    simp [NoteValue.ofLength?, NoteValue.mem_candidates_iff]
  have hsome : ofLength? l =
      some (((NoteValue.ofLength? l).map value).getD (stretched l)) := if_neg (Rat.not_le.2 hl)
  refine ⟨_, hsome, ?_, ?_⟩
  · have hlength := (ofLength?_eq_some hsome).1
    have hstops : Source.Stops Source.carriesOn [] := nofun
    have hread := readDuration_text (hlength ▸ hl) hstops
    rwa [List.append_nil, hlength] at hread
  · rw [star_mem_text_iff, ← hnone]
    cases NoteValue.ofLength? l <;> simp

theorem resolve_eq_ok_iff {token : String} {d : Duration} :
    resolve token = .ok d ↔ ∃ l, TokenMeans token l ∧ ofLength? l = some d := by
  have hiff : resolve token = .ok d ↔ ofToken? token = some d := by
    unfold resolve
    cases ofToken? token <;> simp
  rw [hiff, ofToken?_eq, Option.bind_eq_some_iff]
  simp only [tokenLength?_eq_some_iff]

theorem eq_of_resolve_eq_error {token : String} {e : ConversionError}
    (h : resolve token = .error e) : e = .unknownDuration token := by
  unfold resolve at h
  cases hd : ofToken? token with
  | some d =>
    rw [hd] at h
    cases h
  | none =>
    rw [hd] at h
    cases h
    rfl

end Duration

/-! ## Arithmetic in 32 bits -/

/-- The number, if 32 bits hold it. -/
def fit32? (n : Nat) : Option Nat :=
  if n < UInt32.size then some n else none

/-- The product of two fractions, with numerators and denominators multiplied as they are. -/
def mul32? (x y : Rat) : Option Rat := do
  let n ← fit32? (x.num.toNat * y.num.toNat)
  let d ← fit32? (x.den * y.den)
  return mkRat n d

/-- The difference of two fractions, brought to one denominator by multiplying. -/
def sub32? (x y : Rat) : Option Rat := do
  let n ← fit32? (x.num.toNat * y.den)
  let m ← fit32? (y.num.toNat * x.den)
  let d ← fit32? (x.den * y.den)
  if m ≤ n then some (mkRat (n - m) d) else none

namespace NoteHead

/-- The value is a whole note halved so often, or doubled if this is negative. -/
def exponent : NoteHead → Int
  | longa => -2
  | breve => -1
  | whole => 0
  | half => 1
  | quarter => 2
  | eighth => 3
  | sixteenth => 4
  | thirtySecond => 5
  | sixtyFourth => 6
  | hundredTwentyEighth => 7

def length32? (head : NoteHead) : Option Rat :=
  if head.exponent < 0 then (fit32? (2 ^ head.exponent.natAbs)).map fun n => (n : Rat)
  else (fit32? (2 ^ head.exponent.natAbs)).map fun d => mkRat 1 d

end NoteHead

namespace NoteValue

/-- The length of a value, if every number on the way to it fits. -/
def length32? (v : NoteValue) : Option Rat := do
  let base ← v.head.length32?
  let parts ← fit32? (2 ^ v.dots)
  let factor ← sub32? 2 (mkRat 1 parts)
  mul32? base factor

theorem length32?_eq : ∀ v ∈ candidates, v.length32? = some v.length := by
  decide +kernel

/-- The search for a value of this length, if every number it comes to fits. Two fractions in lowest
terms are compared part by part, for which nothing is worked out. -/
def search32? (length : Rat) : List NoteValue → Option (Option NoteValue)
  | [] => some none
  | v :: vs => do
    let l ← v.length32?
    if l = length then return some v else search32? length vs

theorem search32?_eq (length : Rat) {vs : List NoteValue}
    (h : ∀ v ∈ vs, v.length32? = some v.length) :
    search32? length vs = some (vs.find? (·.length = length)) := by
  induction vs with
  | nil => rfl
  | cons v vs ih =>
    rw [List.forall_mem_cons] at h
    rw [search32?, h.1, ih h.2, List.find?_cons]
    by_cases hv : v.length = length <;> simp [hv]

/-- **The search stays within 32 bits**, whatever length is looked for. -/
theorem search32?_candidates (length : Rat) :
    search32? length candidates = some (ofLength? length) :=
  search32?_eq length length32?_eq

end NoteValue

/-! ## Canonical durations -/

/-- **A token is resolved exactly if it means a length**, and to a duration that stands for this
length and is determined by it; without a length, the complaint is about the token as it is. -/
theorem Duration.resolve_canonical :
    (∀ token, (∃ d, resolve token = .ok d) ↔ ∃ l, TokenMeans token l) ∧
    (∀ token e, resolve token = .error e → e = .unknownDuration token) ∧
    (∀ token d, resolve token = .ok d →
      ∃ l, TokenMeans token l ∧ ofLength? l = some d ∧ d.WrittenFor l) ∧
    (∀ l : Rat, 0 < l → ∃ d, ofLength? l = some d ∧ d.WrittenFor l ∧
      partialDirective l = .ok ("\\partial " ++ d.text)) ∧
    (∀ token token' d d' l l', resolve token = .ok d → resolve token' = .ok d' →
      TokenMeans token l → TokenMeans token' l' → (d.text = d'.text ↔ l = l')) ∧
    (∀ token l, TokenMeans token l → 0 < l ∧ l.num < UInt32.size ∧ l.den < UInt32.size) ∧
    ∀ l, NoteValue.search32? l NoteValue.candidates = some (NoteValue.ofLength? l) := by
  have hresolve (token : String) (d : Duration) (h : resolve token = .ok d) :
      ∃ l, TokenMeans token l ∧ ofLength? l = some d ∧ d.WrittenFor l := by
    obtain ⟨l, hl, hd⟩ := resolve_eq_ok_iff.1 h
    obtain ⟨d', hd', hwritten⟩ := exists_ofLength? hl.bounds.1
    cases hd.symm.trans hd'
    exact ⟨l, hl, hd, hwritten⟩
  refine ⟨fun token => ⟨?_, ?_⟩, fun token e h => eq_of_resolve_eq_error h, hresolve, ?_, ?_,
    fun token l h => h.bounds, NoteValue.search32?_candidates⟩
  · rintro ⟨d, h⟩
    obtain ⟨l, hl, -⟩ := hresolve token d h
    exact ⟨l, hl⟩
  · rintro ⟨l, hl⟩
    obtain ⟨d, hd, -⟩ := exists_ofLength? hl.bounds.1
    exact ⟨d, resolve_eq_ok_iff.2 ⟨l, hl, hd⟩⟩
  · intro l hl
    obtain ⟨d, hd, hwritten⟩ := exists_ofLength? hl
    refine ⟨d, hd, hwritten, ?_⟩
    rw [partialDirective, hd]
  · intro token token' d d' l l' h h' hl hl'
    obtain ⟨k, hk, hd, hwritten⟩ := hresolve token d h
    obtain ⟨k', hk', hd', hwritten'⟩ := hresolve token' d' h'
    cases hl.unique hk
    cases hl'.unique hk'
    constructor
    · intro htext
      have hread := hwritten.read
      rw [htext, hwritten'.read] at hread
      exact (Option.some.inj hread).symm
    · rintro rfl
      cases hd.symm.trans hd'
      rfl

end Scorebook
