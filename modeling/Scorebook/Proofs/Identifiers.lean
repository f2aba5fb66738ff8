import Mathlib.Data.List.Nodup
import Mathlib.Data.List.Perm.Subperm
import Scorebook.Book.Allocator

/-!
# Identifiers are distinct

**Spelling.** What a name is reduced to can be read back from its identifier. A letter is spelled
as itself, in lower case, and a digit as a word that starts with a capital, and no digit word is
the start of another (`spellSymbol_prefixFree`). So two reductions with one spelling are equal
(`spell_injective`), and the numbered candidates of a name are pairwise distinct
(`numbered_injective`).

**Search.** Among one more candidate than there are identifiers issued, one is not taken, and the
search stops at the first of them (`search_fresh`). Hence a request never gets an identifier that
was issued before (`allocate_fresh`), and the identifiers of a run are distinct
(`Sound.allocateAll`).
-/

namespace Scorebook

namespace Identifier

/-! ## Symbols -/

/-- What a reduction is made of. -/
def IsSymbol (c : Char) : Prop :=
  c.isLower ∨ c.isDigit

/-- What holds at the code points of a range holds of the characters in it. -/
theorem of_mem_range (p : Char → Prop) (first count : Nat)
    (h : ∀ n ∈ List.range' first count, p (Char.ofNat n)) {c : Char}
    (hc : first ≤ c.toNat ∧ c.toNat < first + count) : p c := by
  have := h c.toNat (List.mem_range'_1.2 hc)
  rwa [Char.ofNat_toNat] at this

theorem isLower_toLower {c : Char} (h : c.isUpper) : c.toLower.isLower := by
  have hc : 65 ≤ c.toNat ∧ c.toNat ≤ 90 := by
    have h : 65 ≤ c.val ∧ c.val ≤ 90 := of_decide_eq_true h
    simpa [UInt32.le_iff_toNat_le, ← Char.toNat_val] using h
  exact of_mem_range (fun c => c.toLower.isLower) 65 26 (by decide) (by omega)

theorem isSymbol_of_symbol? {c d : Char} (h : symbol? c = some d) : IsSymbol d := by
  unfold symbol? at h
  split_ifs at h with hupper hself hk hi
  · cases h
    exact .inl (isLower_toLower hupper)
  · cases h
    simpa [IsSymbol] using hself
  · cases h
    exact .inl (by decide)
  · cases h
    exact .inl (by decide)

theorem isSymbol_of_mem_reduction {name : String} {c : Char} (h : c ∈ reduction name) :
    IsSymbol c := by
  obtain ⟨d, -, hd⟩ := List.mem_filterMap.1 h
  exact isSymbol_of_symbol? hd

/-! ## Spelling -/

/-- What holds of the ten digits holds of every digit. -/
theorem of_isDigit (p : Char → Prop) (h : ∀ n ∈ List.range' 48 10, p (Char.ofNat n)) {c : Char}
    (hc : c.isDigit) : p c := by
  have hrange : 48 ≤ c.toNat ∧ c.toNat ≤ 57 := Char.isDigit_iff_toNat.1 hc
  exact of_mem_range p 48 10 h (by omega)

theorem digitWord_prefixFree {c d : Char} (hc : c.isDigit) (hd : d.isDigit)
    (h : (digitWord c).toList <+: (digitWord d).toList) : c = d := by
  have hall : ∀ n ∈ List.range' 48 10,
      (digitWord c).toList <+: (digitWord (Char.ofNat n)).toList → c = Char.ofNat n :=
    of_isDigit (fun c => ∀ n ∈ List.range' 48 10,
      (digitWord c).toList <+: (digitWord (Char.ofNat n)).toList → c = Char.ofNat n) (by decide) hc
  exact of_isDigit (fun d => (digitWord c).toList <+: (digitWord d).toList → c = d) hall hd h

theorem digitWord_head {c : Char} (h : c.isDigit) :
    ∃ d, (digitWord c).toList.head? = some d ∧ ¬d.isLower := by
  have hany := of_isDigit (fun c => (digitWord c).toList.head?.any (!·.isLower)) (by decide) h
  simpa [Option.any_eq_true] using hany

theorem spellSymbol_of_isDigit {c : Char} (h : c.isDigit) :
    spellSymbol c = (digitWord c).toList := by
  rw [spellSymbol, if_pos h]

theorem spellSymbol_of_not_isDigit {c : Char} (h : ¬c.isDigit) : spellSymbol c = [c] := by
  rw [spellSymbol, if_neg h]

theorem spellSymbol_ne_nil (c : Char) : spellSymbol c ≠ [] := by
  by_cases h : c.isDigit
  · obtain ⟨d, hd, -⟩ := digitWord_head h
    rw [spellSymbol_of_isDigit h]
    rintro heq
    rw [heq] at hd
    cases hd
  · simp [spellSymbol_of_not_isDigit h]

/-- The spelling of a symbol is never the start of the spelling of another one. -/
theorem spellSymbol_prefixFree {c d : Char} (hc : IsSymbol c) (hd : IsSymbol d)
    (h : spellSymbol c <+: spellSymbol d) : c = d := by
  have hcapital {c : Char} (hdigit : c.isDigit) :
      ∃ e, (spellSymbol c).head? = some e ∧ ¬e.isLower := by
    rw [spellSymbol_of_isDigit hdigit]
    exact digitWord_head hdigit
  have hhead : (spellSymbol c).head? = (spellSymbol d).head? := by
    obtain ⟨rest, hrest⟩ := h
    rw [← hrest, List.head?_append_of_ne_nil _ (spellSymbol_ne_nil c)]
  by_cases hcd : c.isDigit <;> by_cases hdd : d.isDigit
  · rw [spellSymbol_of_isDigit hcd, spellSymbol_of_isDigit hdd] at h
    exact digitWord_prefixFree hcd hdd h
  · obtain ⟨e, he, hupper⟩ := hcapital hcd
    rw [hhead, spellSymbol_of_not_isDigit hdd] at he
    cases he
    exact absurd (hd.resolve_right hdd) hupper
  · obtain ⟨e, he, hupper⟩ := hcapital hdd
    rw [← hhead, spellSymbol_of_not_isDigit hcd] at he
    cases he
    exact absurd (hc.resolve_right hcd) hupper
  · rw [spellSymbol_of_not_isDigit hcd, spellSymbol_of_not_isDigit hdd] at hhead
    simpa using hhead

/-- **A spelling can be read back.** -/
theorem spell_injective {s t : List Char} (hs : ∀ c ∈ s, IsSymbol c) (ht : ∀ c ∈ t, IsSymbol c)
    (h : spell s = spell t) : s = t := by
  have h : s.flatMap spellSymbol = t.flatMap spellSymbol := by
    simpa [spell] using congrArg String.toList h
  induction s generalizing t with
  | nil =>
    cases t with
    | nil => rfl
    | cons d t => simp [spellSymbol_ne_nil] at h
  | cons c s ih =>
    cases t with
    | nil => simp [spellSymbol_ne_nil] at h
    | cons d t =>
      rw [List.flatMap_cons, List.flatMap_cons] at h
      have hc := hs c List.mem_cons_self
      have hd := ht d List.mem_cons_self
      have hcd : c = d := by
        have hpre : spellSymbol c <+: spellSymbol d ++ t.flatMap spellSymbol := ⟨_, h⟩
        rcases List.prefix_or_prefix_of_prefix hpre (List.prefix_append _ _) with hpre | hpre
        · exact spellSymbol_prefixFree hc hd hpre
        · exact (spellSymbol_prefixFree hd hc hpre).symm
      subst hcd
      rw [List.append_cancel_left_eq] at h
      rw [ih (fun e he => hs e (List.mem_cons_of_mem _ he))
        (fun e he => ht e (List.mem_cons_of_mem _ he)) (by rw [spell, spell, h]) h]

/-! ## Identifiers of names -/

theorem ofName_of_reduction_ne_nil {name : String} (h : reduction name ≠ []) :
    ofName name = spell (reduction name) := by
  unfold ofName
  split
  · next heq => exact absurd heq h
  · rfl

theorem symbol?_of_isDigit {c : Char} (h : c.isDigit) : symbol? c = some c := by
  have hupper : c.isUpper = false := of_isDigit (·.isUpper = false) (by decide) h
  simp [symbol?, hupper, h]

/-- A number is reduced to its digits. -/
theorem reduction_toString (k : Nat) : reduction (toString k) = Nat.toDigits 10 k := by
  have hdigits : (toString k).toList = Nat.toDigits 10 k := Nat.toList_repr
  have hall : ∀ c ∈ Nat.toDigits 10 k, symbol? c = some c := fun c hc =>
    symbol?_of_isDigit (Nat.isDigit_of_mem_toDigits (by decide) (by decide) hc)
  rw [reduction, hdigits, List.filterMap_congr hall, List.filterMap_some]

theorem isSymbol_of_mem_toDigits {k : Nat} {c : Char} (h : c ∈ Nat.toDigits 10 k) : IsSymbol c :=
  .inr (Nat.isDigit_of_mem_toDigits (by decide) (by decide) h)

/-- A name with a number behind it is reduced to symbols. -/
theorem isSymbol_of_mem_numbered {name : String} {k : Nat} {c : Char}
    (h : c ∈ reduction name ++ Nat.toDigits 10 k) : IsSymbol c := by
  rcases List.mem_append.1 h with h | h
  · exact isSymbol_of_mem_reduction h
  · exact isSymbol_of_mem_toDigits h

/-- What a macro may be called. -/
def IsWord (id : String) : Prop :=
  id ≠ "" ∧ id.toList.all Char.isAlpha

theorem isAlpha_of_mem_spellSymbol {c d : Char} (hc : IsSymbol c) (h : d ∈ spellSymbol c) :
    d.isAlpha := by
  by_cases hdigit : c.isDigit
  · rw [spellSymbol_of_isDigit hdigit] at h
    have hall := of_isDigit (fun c => (digitWord c).toList.all Char.isAlpha) (by decide) hdigit
    exact List.all_eq_true.1 hall d h
  · rw [spellSymbol_of_not_isDigit hdigit, List.mem_singleton] at h
    show (d.isUpper || d.isLower) = true
    rw [h, hc.resolve_right hdigit, Bool.or_true]

theorem isWord_spell {symbols : List Char} (hne : symbols ≠ [])
    (h : ∀ c ∈ symbols, IsSymbol c) : IsWord (spell symbols) := by
  constructor
  · intro hempty
    have hnil : symbols.flatMap spellSymbol = [] := by
      simpa [spell] using congrArg String.toList hempty
    cases symbols with
    | nil => exact hne rfl
    | cons c symbols => simp [spellSymbol_ne_nil] at hnil
  · rw [spell, String.toList_ofList, List.all_eq_true]
    intro d hd
    obtain ⟨c, hc, hd⟩ := List.mem_flatMap.1 hd
    exact isAlpha_of_mem_spellSymbol (h c hc) hd

theorem isWord_ofName (name : String) : IsWord (ofName name) := by
  by_cases h : reduction name = []
  · have hpart : ofName name = "part" := by rw [ofName, h]
    rw [hpart]
    exact ⟨by decide, by decide⟩
  · rw [ofName_of_reduction_ne_nil h]
    exact isWord_spell h fun c hc => isSymbol_of_mem_reduction hc

end Identifier

namespace Allocator

open Identifier

/-! ## One request -/

theorem reduction_numbered (name : String) (k : Nat) :
    reduction (name ++ toString k) = reduction name ++ Nat.toDigits 10 k := by
  rw [reduction_append, reduction_toString]

theorem numbered_eq_spell (name : String) (k : Nat) :
    numbered name k = spell (reduction name ++ Nat.toDigits 10 k) := by
  have hne : reduction (name ++ toString k) ≠ [] := by
    rw [reduction_numbered]
    simp [Nat.toDigits_ne_nil]
  rw [numbered, ofName_of_reduction_ne_nil hne, reduction_numbered]

theorem numbered_injective (name : String) : Function.Injective (numbered name) := by
  intro j k h
  rw [numbered_eq_spell, numbered_eq_spell] at h
  have heq := spell_injective (fun _ => isSymbol_of_mem_numbered)
    (fun _ => isSymbol_of_mem_numbered) h
  rw [List.append_cancel_left_eq] at heq
  have hvalue := congrArg (Nat.ofDigitChars 10 · 0) heq
  simpa [Nat.ofDigitChars_toDigits] using hvalue

/-- The search stops at the first candidate that is not taken, or at the last one. -/
theorem search_eq (issued : List String) (name : String) (tries k : Nat) :
    ∃ j, search issued name tries k = (numbered name (k + j), k + j) ∧
      (∀ i < j, numbered name (k + i) ∈ issued) ∧
      (numbered name (k + j) ∈ issued → j = tries) := by
  induction tries generalizing k with
  | zero => exact ⟨0, rfl, by simp, fun _ => rfl⟩
  | succ tries ih =>
    unfold search
    split_ifs with htaken
    · obtain ⟨j, hsearch, hbefore, hlast⟩ := ih (k + 1)
      have hshift : k + 1 + j = k + (j + 1) := by omega
      rw [hshift] at hsearch hlast
      refine ⟨j + 1, hsearch, ?_, fun h => by rw [hlast h]⟩
      intro i hi
      cases i with
      | zero => exact htaken
      | succ i =>
        have hi' := hbefore i (by omega)
        rwa [show k + 1 + i = k + (i + 1) by omega] at hi'
    · exact ⟨0, rfl, by simp, fun h => absurd h htaken⟩

/-- Distinct candidates that are all taken are no more than there are identifiers issued. -/
theorem le_length_of_injective {issued : List String} {candidate : Nat → String} {n : Nat}
    (hinjective : Function.Injective candidate) (h : ∀ i < n, candidate i ∈ issued) :
    n ≤ issued.length := by
  have hnodup : ((List.range n).map candidate).Nodup := List.nodup_range.map hinjective
  have hsubset : (List.range n).map candidate ⊆ issued := by
    intro id hid
    obtain ⟨i, hi, rfl⟩ := List.mem_map.1 hid
    exact h i (List.mem_range.1 hi)
  have hlength := (hnodup.subperm hsubset).length_le
  rwa [List.length_map, List.length_range] at hlength

/-- The identifiers issued cannot hold one more candidate than there are of them. -/
theorem exists_numbered_not_mem (issued : List String) (name : String) (k : Nat) :
    ∃ i ≤ issued.length, numbered name (k + i) ∉ issued := by
  by_contra hall
  push Not at hall
  have hinjective : Function.Injective fun i => numbered name (k + i) :=
    fun i j h => Nat.add_left_cancel (numbered_injective name h)
  have hlength := le_length_of_injective hinjective (n := issued.length + 1)
    fun i hi => hall i (Nat.lt_succ_iff.1 hi)
  omega

theorem search_fresh (issued : List String) (name : String) (k : Nat) :
    (search issued name issued.length k).1 ∉ issued := by
  obtain ⟨j, hsearch, hbefore, hlast⟩ := search_eq issued name issued.length k
  rw [hsearch]
  intro htaken
  obtain ⟨i, hi, hfree⟩ := exists_numbered_not_mem issued name k
  rcases Nat.lt_or_eq_of_le (hlast htaken ▸ hi : i ≤ j) with hlt | rfl
  · exact hfree (hbefore i hlt)
  · exact hfree htaken

/-- **An identifier is never handed out twice.** -/
theorem allocate_fresh (a : Allocator) (name : String) : (a.allocate name).1 ∉ a.issued := by
  show (a.choose name).1 ∉ a.issued
  unfold choose
  dsimp only
  split_ifs with htaken
  · exact search_fresh a.issued name _
  · exact htaken

@[simp] theorem issued_allocate (a : Allocator) (name : String) :
    (a.allocate name).2.issued = (a.allocate name).1 :: a.issued := rfl

theorem isWord_allocate (a : Allocator) (name : String) : IsWord (a.allocate name).1 := by
  show IsWord (a.choose name).1
  unfold choose
  dsimp only
  split_ifs with htaken
  · obtain ⟨j, hsearch, -⟩ := search_eq a.issued name a.issued.length
      (a.counter (ofName name) + 1)
    rw [hsearch]
    exact isWord_ofName _
  · exact isWord_ofName name

/-! ## Requests in a row -/

/-- All identifiers issued so far are words, and no two are equal. -/
structure Sound (a : Allocator) : Prop where
  nodup : a.issued.Nodup
  isWord : ∀ id ∈ a.issued, IsWord id

theorem sound_empty : empty.Sound :=
  ⟨List.nodup_nil, by simp [empty]⟩

theorem Sound.allocate {a : Allocator} (h : a.Sound) (name : String) :
    (a.allocate name).2.Sound where
  nodup := List.nodup_cons.2 ⟨a.allocate_fresh name, h.nodup⟩
  isWord id hid := by
    rcases List.mem_cons.1 hid with rfl | hid
    · exact a.isWord_allocate name
    · exact h.isWord id hid

theorem Sound.allocateAll {a : Allocator} (h : a.Sound) (names : List String) :
    (a.allocateAll names).2.Sound := by
  induction names generalizing a with
  | nil => exact h
  | cons name names ih => exact ih (h.allocate name)

@[simp] theorem length_allocateAll (a : Allocator) (names : List String) :
    (a.allocateAll names).1.length = names.length := by
  induction names generalizing a with
  | nil => rfl
  | cons name names ih => exact congrArg (· + 1) (ih (a.allocate name).2)

theorem isWord_of_mem_allocateAll {a : Allocator} {names : List String} {id : String}
    (h : id ∈ (a.allocateAll names).1) : IsWord id := by
  induction names generalizing a with
  | nil => cases h
  | cons name names ih =>
    rcases List.mem_cons.1 h with rfl | h
    · exact a.isWord_allocate name
    · exact ih h

theorem allocateAll_append (a : Allocator) (names more : List String) :
    (a.allocateAll (names ++ more)).2 = ((a.allocateAll names).2.allocateAll more).2 := by
  induction names generalizing a with
  | nil => rfl
  | cons name names ih => exact ih (a.allocate name).2

theorem issued_allocateAll (a : Allocator) (names : List String) :
    (a.allocateAll names).2.issued = (a.allocateAll names).1.reverse ++ a.issued := by
  induction names generalizing a with
  | nil => rfl
  | cons name names ih =>
    show ((a.allocate name).2.allocateAll names).2.issued =
      ((a.allocate name).1 :: ((a.allocate name).2.allocateAll names).1).reverse ++ a.issued
    rw [ih, issued_allocate, List.reverse_cons, List.append_assoc]
    rfl

end Allocator

end Scorebook
