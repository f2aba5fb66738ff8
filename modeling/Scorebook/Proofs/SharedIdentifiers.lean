import Mathlib.Data.List.Forall2
import Scorebook.Proofs.Allocation

/-!
# Which names share an identifier

**Lower case.** An identifier is made of the ASCII letters and digits that a name has in lower case.
Lower case is that of Unicode, and of Unicode no more is asked than what it does to these characters
(`LowerCase`): an ASCII character has its own lower case, two characters beyond ASCII have an ASCII
letter in theirs, and no other has. Its lower case may still depend on the characters around it, as
that of the sigma does. Character by character, what is kept of the lower case is what the reduction
of the name keeps (`reduction_eq_kept`), so a name with more behind it is reduced in two parts.

**Reading back.** Letters stand for themselves and digits are words with a capital, so what was kept
is read back from the identifier (`spell_injective`), except that an identifier cannot tell a name
of which nothing is kept from the name `part` (`ofName_eq_spell_symbols`). Names with one identifier
have the same digits in particular (`digits_eq_of_ofName_eq`).

Main result: `ofName_tells_symbols`.
-/

namespace Scorebook.Identifier

/-! ## Lower case -/

/-- What is known of the lower case of a character. -/
inductive LowerCase : Char → List Char → Prop
  | ascii {c : Char} : c.toNat < 128 → LowerCase c [c.toLower]
  | kelvin : LowerCase '\u212A' ['k']
  | dottedI : LowerCase '\u0130' ['i', '\u0307']
  | other {c : Char} {lower : List Char} : 128 ≤ c.toNat → c ≠ '\u212A' → c ≠ '\u0130' →
      (∀ d ∈ lower, 128 ≤ d.toNat) → LowerCase c lower

/-- The text is the name in lower case, character by character. -/
def InLowerCase (name lower : String) : Prop :=
  ∃ parts, List.Forall₂ LowerCase name.toList parts ∧ lower.toList = parts.flatten

/-- The ASCII letters and digits of a text. -/
def kept (lower : String) : List Char :=
  lower.toList.filter Char.isAlphanum

/-- The ASCII letters and digits of a text; where there are none, the letters of `part`. -/
def symbols (lower : String) : List Char :=
  match kept lower with
  | [] => ['p', 'a', 'r', 't']
  | cs => cs

/-- The words of these digits in a row. -/
def digitWords (digits : List Char) : String :=
  String.join (digits.map digitWord)

theorem isAlphanum_eq (c : Char) :
    c.isAlphanum = (c.isUpper || c.isLower || c.isDigit) := rfl

theorem toNat_lt_of_isAlphanum {c : Char} (h : c.isAlphanum = true) : c.toNat < 128 := by
  rw [isAlphanum_eq, Bool.or_eq_true, Bool.or_eq_true] at h
  rcases h with (hupper | hlower) | hdigit
  · have hle : c.toNat ≤ 'Z'.toNat := (of_decide_eq_true hupper).2
    have hlast : 'Z'.toNat < 128 := by decide
    omega
  · have hle : c.toNat ≤ 'z'.toNat := of_decide_eq_true (Bool.and_eq_true_iff.1 hlower).2
    have hlast : 'z'.toNat < 128 := by decide
    omega
  · have hle := (Char.isDigit_iff_toNat.1 hdigit).2
    have hlast : '9'.toNat < 128 := by decide
    omega

theorem exists_lowerCase (c : Char) : ∃ lower, LowerCase c lower := by
  by_cases hascii : c.toNat < 128
  · exact ⟨_, .ascii hascii⟩
  by_cases hkelvin : c = '\u212A'
  · subst hkelvin
    exact ⟨_, .kelvin⟩
  by_cases hdotted : c = '\u0130'
  · subst hdotted
    exact ⟨_, .dottedI⟩
  · exact ⟨[], .other (by omega) hkelvin hdotted (by simp)⟩

theorem exists_inLowerCase (name : String) : ∃ lower, InLowerCase name lower := by
  have hparts : ∃ parts, List.Forall₂ LowerCase name.toList parts := by
    induction name.toList with
    | nil => exact ⟨[], .nil⟩
    | cons c cs ih =>
      obtain ⟨lower, hc⟩ := exists_lowerCase c
      obtain ⟨parts, hcs⟩ := ih
      exact ⟨lower :: parts, .cons hc hcs⟩
  obtain ⟨parts, hparts⟩ := hparts
  exact ⟨String.ofList parts.flatten, parts, hparts, String.toList_ofList⟩

/-- Names stand in lower case one behind the other. -/
theorem InLowerCase.append {a b la lb : String} (ha : InLowerCase a la) (hb : InLowerCase b lb) :
    InLowerCase (a ++ b) (la ++ lb) := by
  obtain ⟨parts, hparts, hla⟩ := ha
  obtain ⟨others, hothers, hlb⟩ := hb
  refine ⟨parts ++ others, ?_, ?_⟩
  · rw [String.toList_append]
    exact List.rel_append hparts hothers
  · rw [String.toList_append, hla, hlb, List.flatten_append]

theorem inLowerCase_of_ascii {name : String} (h : name.toList.all (·.toNat < 128) = true) :
    InLowerCase name (String.ofList (name.toList.map Char.toLower)) := by
  refine ⟨name.toList.map fun c => [c.toLower], ?_, ?_⟩
  · rw [List.forall₂_map_right_iff, List.forall₂_same]
    intro c hc
    exact .ascii (of_decide_eq_true (List.all_eq_true.1 h c hc))
  · rw [String.toList_ofList]
    induction name.toList with
    | nil => rfl
    | cons c cs ih => simp [ih]

/-- **One character.** What is kept of its lower case is its symbol. -/
theorem LowerCase.filter_eq {c : Char} {lower : List Char} (h : LowerCase c lower) :
    lower.filter Char.isAlphanum = (symbol? c).toList := by
  cases h with
  | ascii hc =>
    exact of_mem_range (fun c => [c.toLower].filter Char.isAlphanum = (symbol? c).toList) 0 128
      (by decide +kernel) ⟨Nat.zero_le _, by omega⟩
  | kelvin => decide
  | dottedI => decide
  | other hc hkelvin hdotted hlower =>
    have hnone (d : Char) (hd : 128 ≤ d.toNat) : d.isAlphanum = false := by
      rw [Bool.eq_false_iff]
      intro hd'
      have hlt := toNat_lt_of_isAlphanum hd'
      omega
    have hkinds := hnone c hc
    rw [isAlphanum_eq, Bool.or_eq_false_iff, Bool.or_eq_false_iff] at hkinds
    have hsymbol : symbol? c = none := by
      simp [symbol?, hkinds, hkelvin, hdotted]
    rw [hsymbol, Option.toList_none, List.filter_eq_nil_iff]
    intro d hd
    rw [hnone d (hlower d hd)]
    exact Bool.false_ne_true

/-- **What is kept of a name in lower case is its reduction.** -/
theorem reduction_eq_kept {name lower : String} (h : InLowerCase name lower) :
    reduction name = kept lower := by
  obtain ⟨parts, hparts, hlower⟩ := h
  rw [reduction, kept, hlower, List.filter_flatten]
  clear hlower
  generalize name.toList = cs at hparts
  induction hparts with
  | nil => rfl
  | @cons c lower cs parts hc _ ih =>
    rw [List.map_cons, List.flatten_cons, hc.filter_eq, ← ih]
    cases hsymbol : symbol? c <;> simp [hsymbol]

/-! ## Reading back -/

theorem isSymbol_of_mem_symbols {name lower : String} (h : InLowerCase name lower) {c : Char}
    (hc : c ∈ symbols lower) : IsSymbol c := by
  unfold symbols at hc
  rw [← reduction_eq_kept h] at hc
  split at hc
  · have hpart : ['p', 'a', 'r', 't'].all Char.isLower = true := by decide
    exact .inl (List.all_eq_true.1 hpart c hc)
  · exact isSymbol_of_mem_reduction hc

/-- The identifier of a name spells what is kept of the name in lower case. -/
theorem ofName_eq_spell_symbols {name lower : String} (h : InLowerCase name lower) :
    ofName name = spell (symbols lower) := by
  have hpart : "part" = spell ['p', 'a', 'r', 't'] := by decide
  unfold ofName symbols
  rw [← reduction_eq_kept h, hpart]
  cases reduction name <;> rfl

theorem ofName_eq_iff {a b la lb : String} (ha : InLowerCase a la) (hb : InLowerCase b lb) :
    ofName a = ofName b ↔ symbols la = symbols lb := by
  rw [ofName_eq_spell_symbols ha, ofName_eq_spell_symbols hb]
  constructor
  · intro h
    exact spell_injective (fun _ => isSymbol_of_mem_symbols ha)
      (fun _ => isSymbol_of_mem_symbols hb) h
  · intro h
    rw [h]

/-! ## Digits -/

theorem isDigit_of_symbol? {c d : Char} (h : symbol? c = some d) : d.isDigit = c.isDigit := by
  unfold symbol? at h
  split_ifs at h with hupper hself hk hi
  · cases h
    have hascii : c.toNat < 128 :=
      toNat_lt_of_isAlphanum (by rw [isAlphanum_eq, hupper, Bool.true_or, Bool.true_or])
    exact of_mem_range (fun c => c.toLower.isDigit = c.isDigit) 0 128 (by decide +kernel)
      ⟨Nat.zero_le _, by omega⟩
  · cases h
    rfl
  · cases h
    subst hk
    decide
  · cases h
    subst hi
    decide

/-- **A reduction keeps the digits**, all of them and in their order. -/
theorem filter_isDigit_reduction (name : String) :
    (reduction name).filter Char.isDigit = name.toList.filter Char.isDigit := by
  unfold reduction
  induction name.toList with
  | nil => rfl
  | cons c cs ih =>
    by_cases hdigit : c.isDigit
    · rw [List.filterMap_cons, symbol?_of_isDigit hdigit]
      simp [hdigit, ih]
    · cases hsymbol : symbol? c with
      | none => simp [hsymbol, hdigit, ih]
      | some d =>
        have hd : d.isDigit = false := by
          rw [isDigit_of_symbol? hsymbol, Bool.eq_false_iff]
          exact hdigit
        simp [hsymbol, hdigit, hd, ih]

theorem filter_isDigit_symbols {name lower : String} (h : InLowerCase name lower) :
    (symbols lower).filter Char.isDigit = name.toList.filter Char.isDigit := by
  rw [← filter_isDigit_reduction, reduction_eq_kept h]
  unfold symbols
  cases kept lower with
  | nil => decide
  | cons c cs => rfl

/-- Names that share an identifier have the same digits. -/
theorem digits_eq_of_ofName_eq {a b : String} (h : ofName a = ofName b) :
    a.toList.filter Char.isDigit = b.toList.filter Char.isDigit := by
  obtain ⟨la, ha⟩ := exists_inLowerCase a
  obtain ⟨lb, hb⟩ := exists_inLowerCase b
  rw [← filter_isDigit_symbols ha, ← filter_isDigit_symbols hb, (ofName_eq_iff ha hb).1 h]

/-- No other text in the place of a digit makes up for it, if there is no digit in it. -/
theorem ofName_digit_ne (before after : String) {word : String} {d : Char}
    (hd : d.isDigit = true) (hword : ∀ c ∈ word.toList, c.isDigit = false) :
    ofName (before ++ String.singleton d ++ after) ≠ ofName (before ++ word ++ after) := by
  intro h
  have hlength := congrArg List.length (digits_eq_of_ofName_eq h)
  have hnone : word.toList.filter Char.isDigit = [] := by
    simpa using hword
  simp [hd, hnone] at hlength

theorem spell_eq_digitWords {digits : List Char} (h : ∀ c ∈ digits, c.isDigit = true) :
    spell digits = digitWords digits := by
  induction digits with
  | nil => rfl
  | cons c digits ih =>
    have hc := h c List.mem_cons_self
    have hrest := ih fun d hd => h d (List.mem_cons_of_mem _ hd)
    have hone : spell [c] = digitWord c := by
      simp [spell, spellSymbol_of_isDigit hc]
    rw [← List.singleton_append, spell_append, hone, hrest]
    simp [digitWords]

theorem digitWords_injective {digits others : List Char} (h : ∀ c ∈ digits, c.isDigit = true)
    (hothers : ∀ c ∈ others, c.isDigit = true) (heq : digitWords digits = digitWords others) :
    digits = others := by
  rw [← spell_eq_digitWords h, ← spell_eq_digitWords hothers] at heq
  exact spell_injective (fun c hc => .inr (h c hc)) (fun c hc => .inr (hothers c hc)) heq

/-- A number behind a name is spelled behind its identifier. -/
theorem ofName_append_toString {name : String} (h : reduction name ≠ []) (k : Nat) :
    ofName (name ++ toString k) = ofName name ++ digitWords (toString k).toList := by
  have hdigits : (toString k).toList = Nat.toDigits 10 k := Nat.toList_repr
  have hall : ∀ c ∈ Nat.toDigits 10 k, c.isDigit = true := fun c hc =>
    Nat.isDigit_of_mem_toDigits (by decide) (by decide) hc
  rw [hdigits, ← spell_eq_digitWords hall]
  exact Allocator.numbered_eq_append h k

/-- **Which names share an identifier.** Every name has a lower case, and two names have the same
identifier if and only if the same letters and digits are kept of their lower cases, none counting
as those of `part`. So a digit is never taken for a word, digits are read back from their words, and
the words of a number stand behind the identifier of the name that the number is behind. -/
theorem ofName_tells_symbols :
    (∀ name, ∃ lower, InLowerCase name lower) ∧
    (∀ a b la lb, InLowerCase a la → InLowerCase b lb →
      (ofName a = ofName b ↔ symbols la = symbols lb)) ∧
    (∀ before after word : String, ∀ d : Char, d.isDigit = true →
      (∀ c ∈ word.toList, c.isDigit = false) →
      ofName (before ++ String.singleton d ++ after) ≠ ofName (before ++ word ++ after)) ∧
    (∀ digits others : List Char, (∀ c ∈ digits, c.isDigit = true) →
      (∀ c ∈ others, c.isDigit = true) → digitWords digits = digitWords others →
      digits = others) ∧
    ∀ name lower, InLowerCase name lower → kept lower ≠ [] → ∀ k : Nat,
      ofName (name ++ toString k) = ofName name ++ digitWords (toString k).toList := by
  refine ⟨exists_inLowerCase, ?_, ?_, ?_, ?_⟩
  · intro a b la lb ha hb
    exact ofName_eq_iff ha hb
  · intro before after word d hd hword
    exact ofName_digit_ne before after hd hword
  · intro digits others h hothers heq
    exact digitWords_injective h hothers heq
  · intro name lower h hkept k
    rw [← reduction_eq_kept h] at hkept
    exact ofName_append_toString hkept k

/-- A name with a Kelvin sign shares its identifier with one that has a letter there. -/
theorem ofName_kelvin : ofName "\u212Aazoo 2" = ofName "KAZOO-2" ∧
    ofName "Kazoo Two" ≠ ofName "Kazoo 2" := by
  have hsign : InLowerCase "\u212A" "k" := ⟨[['k']], .cons .kelvin .nil, by decide⟩
  have hrest : InLowerCase "azoo 2" _ := inLowerCase_of_ascii (by decide)
  have hcapitals : InLowerCase "KAZOO-2" _ := inLowerCase_of_ascii (by decide)
  refine ⟨?_, ?_⟩
  · exact (ofName_tells_symbols.2.1 _ _ _ _ (hsign.append hrest) hcapitals).2 (by decide)
  · exact (ofName_tells_symbols.2.2.1 "Kazoo " "" "Two" '2' (by decide) (by simp)).symm

end Scorebook.Identifier
