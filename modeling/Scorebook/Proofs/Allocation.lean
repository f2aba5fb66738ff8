import Mathlib.Data.List.Induction
import Mathlib.Order.Bounds.Defs
import Scorebook.Proofs.Identifiers

/-!
# Requests for identifiers

**Search.** A request tries its bare identifier first and then one numbered candidate after the
other, until one is free (`Search`). What it passes on its way is taken, and no two of its
candidates are equal, so it takes at most as many turns as there are identifiers issued
(`Search.turns_le`).

**Numbers.** A number behind a name is spelled behind the identifier of the name
(`numbered_eq_append`), unless nothing of the name is left in it: such a name has the identifier
`part`, but the number is then spelled alone (`numbered_of_blank`). Numbers are counted up for all
names of one identifier together. Where each of these names has something left in it, every number
that was counted over is taken behind the identifier (`CountedOver`), and the next one that is free
is the least that is free.

Main results: `allocateAll_ends_in_distinct_words`, and `allocateAll_numbers_least_iff` on which
requests get the least number: all of them, unless a name with nothing left in it comes behind
another with the identifier `part`.
-/

namespace Scorebook

namespace Identifier

/-- A number, spelled digit by digit. -/
def numberWord (k : Nat) : String :=
  spell (Nat.toDigits 10 k)

/-- Nothing of the name is left in its identifier. -/
def IsBlank (name : String) : Prop :=
  reduction name = []

instance (name : String) : Decidable (IsBlank name) :=
  inferInstanceAs (Decidable (_ = _))

theorem ofName_of_blank {name : String} (h : IsBlank name) : ofName name = "part" := by
  rw [ofName, h]

theorem numberWord_ne_append (k j : Nat) : numberWord k ≠ "part" ++ numberWord j := by
  intro h
  have hpart : "part" = spell ['p', 'a', 'r', 't'] := by decide
  rw [hpart, numberWord, numberWord, ← spell_append] at h
  have hreduction : reduction "part" = ['p', 'a', 'r', 't'] := by decide
  rw [← hreduction] at h
  have hlist := spell_injective (fun _ => isSymbol_of_mem_toDigits)
    (fun _ => isSymbol_of_mem_numbered) h
  have hp : 'p' ∈ Nat.toDigits 10 k := by simp [hlist, hreduction]
  have hdigit : 'p'.isDigit := Nat.isDigit_of_mem_toDigits (by decide) (by decide) hp
  exact absurd hdigit (by decide)

end Identifier

namespace Allocator

open Identifier

/-! ## Numbered candidates -/

/-- The number stands behind the identifier of the name. -/
theorem numbered_eq_append {name : String} (h : ¬IsBlank name) (k : Nat) :
    numbered name k = ofName name ++ numberWord k := by
  rw [numbered_eq_spell, spell_append, ofName_of_reduction_ne_nil h, numberWord]

/-- Behind nothing the number stands alone. -/
theorem numbered_of_blank {name : String} (h : IsBlank name) (k : Nat) :
    numbered name k = numberWord k := by
  rw [numbered_eq_spell, h, List.nil_append, numberWord]

/-- A numbered identifier ends with the word of a digit. -/
theorem exists_digitWord_suffix (name : String) (k : Nat) :
    ∃ d : Char, d.isDigit ∧ (digitWord d).toList <:+ (numbered name k).toList := by
  obtain ⟨front, d, hdigits⟩ :
      ∃ front d, Nat.toDigits 10 k = front ++ [d] :=
    ⟨_, _, (List.dropLast_append_getLast Nat.toDigits_ne_nil).symm⟩
  have hd : d.isDigit :=
    Nat.isDigit_of_mem_toDigits (b := 10) (n := k) (by decide) (by decide) (by simp [hdigits])
  refine ⟨d, hd, (spell (reduction name ++ front)).toList, ?_⟩
  rw [numbered_eq_spell, hdigits, ← List.append_assoc, spell_append, String.toList_append]
  simp [spell, spellSymbol_of_isDigit hd]

theorem numbered_ne_part (name : String) (k : Nat) : numbered name k ≠ "part" := by
  intro h
  obtain ⟨d, hd, hsuffix⟩ := exists_digitWord_suffix name k
  rw [h] at hsuffix
  exact of_isDigit (fun d => ¬(digitWord d).toList <:+ "part".toList) (by decide) hd hsuffix

/-- No numbered candidate of a name is its bare identifier. -/
theorem numbered_ne_ofName (name : String) (k : Nat) : numbered name k ≠ ofName name := by
  intro h
  by_cases hblank : IsBlank name
  · rw [ofName_of_blank hblank] at h
    exact numbered_ne_part name k h
  · rw [numbered_eq_spell, ofName_of_reduction_ne_nil hblank] at h
    have hlist := spell_injective (fun _ => isSymbol_of_mem_numbered)
      (fun _ => isSymbol_of_mem_reduction) h
    simp [Nat.toDigits_ne_nil] at hlist

/-- What a request for the name tries in turn, `k` being the last number tried so far. -/
def candidate (name : String) (k : Nat) : Nat → String
  | 0 => ofName name
  | i + 1 => numbered name (k + 1 + i)

theorem candidate_injective (name : String) (k : Nat) : Function.Injective (candidate name k) := by
  intro i j h
  cases i <;> cases j
  · rfl
  · exact absurd h.symm (numbered_ne_ofName name _)
  · exact absurd h (numbered_ne_ofName name _)
  · have hnumber := numbered_injective name h
    omega

/-! ## The search -/

/-- From the candidate and the number in front, the search for an identifier that is not taken ends
after so many turns with those behind. -/
inductive Search (issued : List String) (name : String) :
    String × Nat → Nat → String × Nat → Prop
  | free {id : String} {k : Nat} : id ∉ issued → Search issued name (id, k) 0 (id, k)
  | taken {id : String} {k turns : Nat} {found : String × Nat} : id ∈ issued →
      Search issued name (numbered name (k + 1), k + 1) turns found →
      Search issued name (id, k) (turns + 1) found

variable {issued : List String} {name : String}

theorem Search.of_taken {id : String} {j k : Nat} (hid : id ∈ issued)
    (hbefore : ∀ i < j, numbered name (k + 1 + i) ∈ issued)
    (hfree : numbered name (k + 1 + j) ∉ issued) :
    Search issued name (id, k) (j + 1) (numbered name (k + 1 + j), k + 1 + j) := by
  induction j generalizing id k with
  | zero => exact .taken hid (.free hfree)
  | succ j ih =>
    have hshift (i : Nat) : k + 1 + 1 + i = k + 1 + (i + 1) := by omega
    have hrest := @ih (numbered name (k + 1)) (k + 1) (hbefore 0 (by omega))
      (fun i hi => by rw [hshift]; exact hbefore (i + 1) (by omega))
      (by rw [hshift]; exact hfree)
    rw [hshift] at hrest
    exact .taken hid hrest

/-- The candidates in front of the one that is found are taken. -/
theorem Search.mem_issued {id : String} {k turns : Nat} {found : String × Nat}
    (h : Search issued name (id, k) (turns + 1) found) :
    id ∈ issued ∧ ∀ i < turns, numbered name (k + 1 + i) ∈ issued := by
  induction turns generalizing id k with
  | zero =>
    cases h with
    | taken hid _ => exact ⟨hid, by simp⟩
  | succ turns ih =>
    cases h with
    | taken hid hrest =>
      obtain ⟨hfirst, hothers⟩ := ih hrest
      refine ⟨hid, fun i hi => ?_⟩
      cases i with
      | zero => exact hfirst
      | succ i =>
        have hi' := hothers i (by omega)
        rwa [show k + 1 + 1 + i = k + 1 + (i + 1) by omega] at hi'

/-- **A search takes at most as many turns as there are identifiers issued.** -/
theorem Search.turns_le {k turns : Nat} {found : String × Nat}
    (h : Search issued name (ofName name, k) turns found) : turns ≤ issued.length := by
  cases turns with
  | zero => exact Nat.zero_le _
  | succ turns =>
    obtain ⟨hbare, hnumbered⟩ := h.mem_issued
    refine le_length_of_injective (candidate_injective name k) fun i hi => ?_
    cases i with
    | zero => exact hbare
    | succ i => exact hnumbered i (by omega)

/-! ## What is chosen -/

theorem choose_of_not_mem {a : Allocator} {name : String} (h : ofName name ∉ a.issued) :
    a.choose name = (ofName name, a.counter (ofName name)) := by
  unfold choose
  dsimp only
  rw [if_neg h]

/-- Where the bare identifier is taken, the first numbered candidate that is free is chosen. -/
theorem choose_of_mem {a : Allocator} {name : String} (h : ofName name ∈ a.issued) :
    ∃ j, a.choose name = (numbered name (a.counter (ofName name) + 1 + j),
        a.counter (ofName name) + 1 + j) ∧
      (∀ i < j, numbered name (a.counter (ofName name) + 1 + i) ∈ a.issued) ∧
      numbered name (a.counter (ofName name) + 1 + j) ∉ a.issued := by
  have hfree := search_fresh a.issued name (a.counter (ofName name) + 1)
  obtain ⟨j, hsearch, hbefore, -⟩ := search_eq a.issued name a.issued.length
    (a.counter (ofName name) + 1)
  rw [hsearch] at hfree
  refine ⟨j, ?_, hbefore, hfree⟩
  unfold choose
  dsimp only
  rw [if_pos h, hsearch]

/-- **Every request ends**, and with what the allocator chooses. -/
theorem search_choose (a : Allocator) (name : String) :
    ∃ turns, Search a.issued name (ofName name, a.counter (ofName name)) turns (a.choose name) := by
  by_cases htaken : ofName name ∈ a.issued
  · obtain ⟨j, hchoose, hbefore, hfree⟩ := choose_of_mem htaken
    rw [hchoose]
    exact ⟨j + 1, .of_taken htaken hbefore hfree⟩
  · rw [choose_of_not_mem htaken]
    exact ⟨0, .free htaken⟩

theorem fst_allocate (a : Allocator) (name : String) :
    (a.allocate name).1 = (a.choose name).1 := rfl

/-- **Every request ends after a candidate more than there are identifiers issued**, and all
identifiers that are ever given are words, no two of which are equal. -/
theorem allocateAll_ends_in_distinct_words (names : List String) :
    (∀ before name after, names = before ++ name :: after →
      let a := (empty.allocateAll before).2
      ∃ turns ≤ a.issued.length, ∃ number,
        Search a.issued name (ofName name, a.counter (ofName name)) turns
          ((a.allocate name).1, number)) ∧
    (empty.allocateAll names).1.Nodup ∧ ∀ id ∈ (empty.allocateAll names).1, IsWord id := by
  have hsound := sound_empty.allocateAll names
  have hissued : (empty.allocateAll names).2.issued = (empty.allocateAll names).1.reverse := by
    rw [issued_allocateAll]
    exact List.append_nil _
  refine ⟨?_, ?_, ?_⟩
  · intro before name after hnames
    obtain ⟨turns, hsearch⟩ := search_choose (empty.allocateAll before).2 name
    exact ⟨turns, hsearch.turns_le, _, hsearch⟩
  · have hnodup := hsound.nodup
    rwa [hissued, List.nodup_reverse] at hnodup
  · intro id hid
    refine hsound.isWord id ?_
    rwa [hissued, List.mem_reverse]

/-! ## Identifiers given bare -/

/-- **One request.** What no numbered candidate is called is given for a name whose identifier it
is, and for no other. -/
theorem mem_issued_allocate_iff {id : String} (hid : ∀ name k, numbered name k ≠ id)
    (a : Allocator) (name : String) :
    id ∈ (a.allocate name).2.issued ↔ id ∈ a.issued ∨ ofName name = id := by
  rw [issued_allocate, List.mem_cons, or_comm, fst_allocate]
  by_cases htaken : ofName name ∈ a.issued
  · obtain ⟨j, hchoose, -⟩ := choose_of_mem htaken
    have hother : id ≠ (a.choose name).1 := by
      rw [hchoose]
      exact (hid _ _).symm
    rw [or_iff_left hother]
    refine ⟨.inl, ?_⟩
    rintro (h | rfl)
    · exact h
    · exact htaken
  · rw [choose_of_not_mem htaken, eq_comm]

theorem mem_issued_allocateAll_iff {id : String} (hid : ∀ name k, numbered name k ≠ id)
    (a : Allocator) (names : List String) :
    id ∈ (a.allocateAll names).2.issued ↔ id ∈ a.issued ∨ ∃ name ∈ names, ofName name = id := by
  induction names generalizing a with
  | nil => simp [allocateAll]
  | cons name names ih =>
    rw [allocateAll]
    simp only [ih, mem_issued_allocate_iff hid, List.exists_mem_cons_iff, or_assoc]

theorem mem_allocateAll_iff {id : String} (hid : ∀ name k, numbered name k ≠ id)
    (names : List String) :
    id ∈ (empty.allocateAll names).1 ↔ ∃ name ∈ names, ofName name = id := by
  have hissued := mem_issued_allocateAll_iff hid empty names
  rw [issued_allocateAll] at hissued
  simpa [empty] using hissued

/-! ## The least number -/

/-- The identifier given is the bare one where that is free, and otherwise that with the least
number behind it, from two on, which makes a free one. -/
def LeastFree (issued : List String) (id given : String) : Prop :=
  (id ∉ issued ∧ given = id) ∨
    (id ∈ issued ∧ ∃ k, IsLeast {k | 2 ≤ k ∧ id ++ numberWord k ∉ issued} k ∧
      given = id ++ numberWord k)

/-- The numbers that were counted over for an identifier are taken behind it. -/
structure CountedOver (a : Allocator) (id : String) : Prop where
  one_le : 1 ≤ a.counter id
  mem_issued : ∀ k, 2 ≤ k → k ≤ a.counter id → id ++ numberWord k ∈ a.issued

theorem countedOver_empty (id : String) : empty.CountedOver id := by
  have hcounter : empty.counter id = 1 := rfl
  constructor
  · omega
  · intro k hk hle
    omega

/-- Where nothing is counted, more identifiers do no harm. -/
theorem CountedOver.of_counter_eq {a b : Allocator} {id : String} (h : a.CountedOver id)
    (hcounter : b.counter id = a.counter id) (hissued : a.issued ⊆ b.issued) :
    b.CountedOver id := by
  constructor
  · rw [hcounter]
    exact h.one_le
  · intro k hk hle
    rw [hcounter] at hle
    exact hissued (h.mem_issued k hk hle)

theorem counter_allocate (a : Allocator) (name id : String) :
    (a.allocate name).2.counter id =
      if ofName name = id then (a.choose name).2 else a.counter id := by
  show (List.lookup id ((ofName name, (a.choose name).2) :: a.counters)).getD 1 = _
  by_cases h : ofName name = id
  · simp [h]
  · have hne : (id == ofName name) = false := by simpa using Ne.symm h
    rw [List.lookup_cons, hne, if_neg h]
    rfl

/-- The number of a request for a name with something left in it is the least that is free, if the
numbers counted over are taken. -/
theorem CountedOver.choose_eq {a : Allocator} {name : String} (h : a.CountedOver (ofName name))
    (hname : ¬IsBlank name) (htaken : ofName name ∈ a.issued) :
    ∃ k, a.counter (ofName name) < k ∧ a.choose name = (ofName name ++ numberWord k, k) ∧
      IsLeast {k | 2 ≤ k ∧ ofName name ++ numberWord k ∉ a.issued} k := by
  obtain ⟨j, hchoose, hbefore, hfree⟩ := choose_of_mem htaken
  simp only [numbered_eq_append hname] at hchoose hbefore hfree
  have hone := h.one_le
  refine ⟨_, by omega, hchoose, ⟨by omega, hfree⟩, ?_⟩
  intro k hk
  by_contra hlt
  -- A lower number was counted over before, or it is passed now.
  refine hk.2 ?_
  by_cases hle : k ≤ a.counter (ofName name)
  · exact h.mem_issued k hk.1 hle
  · obtain ⟨i, rfl⟩ := Nat.exists_eq_add_of_le (Nat.lt_of_not_le hle : _ + 1 ≤ k)
    exact hbefore i (by omega)

theorem leastFree_of_not_mem {a : Allocator} {name : String} (h : ofName name ∉ a.issued) :
    LeastFree a.issued (ofName name) (a.allocate name).1 := by
  refine .inl ⟨h, ?_⟩
  rw [fst_allocate, choose_of_not_mem h]

theorem CountedOver.leastFree {a : Allocator} {name : String} (h : a.CountedOver (ofName name))
    (hname : ¬IsBlank name) : LeastFree a.issued (ofName name) (a.allocate name).1 := by
  by_cases htaken : ofName name ∈ a.issued
  · obtain ⟨k, -, hchoose, hleast⟩ := h.choose_eq hname htaken
    refine .inr ⟨htaken, k, hleast, ?_⟩
    rw [fst_allocate, hchoose]
  · exact leastFree_of_not_mem htaken

/-- **One request** leaves the numbers counted over, unless nothing is left in its name. -/
theorem CountedOver.allocate {a : Allocator} {id name : String} (h : a.CountedOver id)
    (hname : ofName name = id → id ∈ a.issued → ¬IsBlank name) :
    (a.allocate name).2.CountedOver id := by
  by_cases hid : ofName name = id
  · subst hid
    by_cases htaken : ofName name ∈ a.issued
    · obtain ⟨k, hcounter, hchoose, hleast⟩ := h.choose_eq (hname rfl htaken) htaken
      have hnumber : (a.allocate name).2.counter (ofName name) = k := by
        rw [counter_allocate, if_pos rfl, hchoose]
      have hgiven : (a.allocate name).1 = ofName name ++ numberWord k := by
        rw [fst_allocate, hchoose]
      refine ⟨by omega, fun j hj hle => ?_⟩
      rw [issued_allocate, hgiven, List.mem_cons]
      by_cases heq : j = k
      · exact .inl (by rw [heq])
      · refine .inr ?_
        by_contra hfree
        have := hleast.2 ⟨hj, hfree⟩
        omega
    · refine h.of_counter_eq ?_ (List.subset_cons_self _ _)
      rw [counter_allocate, if_pos rfl, choose_of_not_mem htaken]
  · refine h.of_counter_eq ?_ (List.subset_cons_self _ _)
    rw [counter_allocate, if_neg hid]

/-! ## A run of requests -/

/-- Behind the requests in front, the request gets the least number that is free, if any. -/
def IsLeastFree (before : List String) (name : String) : Prop :=
  LeastFree (empty.allocateAll before).1 (ofName name)
    ((empty.allocateAll before).2.allocate name).1

theorem leastFree_congr {issued others : List String} (h : ∀ id, id ∈ issued ↔ id ∈ others)
    (id given : String) : LeastFree issued id given ↔ LeastFree others id given := by
  simp only [LeastFree, h]

/-- The identifiers issued in a run are those that were given. -/
theorem mem_issued_iff (names : List String) (id : String) :
    id ∈ (empty.allocateAll names).2.issued ↔ id ∈ (empty.allocateAll names).1 := by
  rw [issued_allocateAll]
  simp [empty]

theorem isLeastFree_iff (before : List String) (name : String) :
    IsLeastFree before name ↔ LeastFree (empty.allocateAll before).2.issued (ofName name)
      ((empty.allocateAll before).2.allocate name).1 :=
  (leastFree_congr (mem_issued_iff before) _ _).symm

/-- Names with nothing left in them do not come behind others with their identifier. -/
def BlankFirst (names : List String) : Prop :=
  ∀ before name after, names = before ++ name :: after → IsBlank name →
    ∀ earlier ∈ before, ofName earlier ≠ "part"

theorem BlankFirst.of_append {names more : List String} (h : BlankFirst (names ++ more)) :
    BlankFirst names := by
  intro before name after hnames hblank
  refine h before name (after ++ more) ?_ hblank
  rw [hnames, List.append_assoc]
  rfl

/-- **A run of requests** leaves the numbers counted over, unless such a name comes late. -/
theorem countedOver_allocateAll {id : String} (names : List String)
    (h : id = "part" → BlankFirst names) : (empty.allocateAll names).2.CountedOver id := by
  induction names using List.reverseRecOn with
  | nil => exact countedOver_empty id
  | append_singleton names name ih =>
    rw [allocateAll_append]
    refine (ih fun hid => (h hid).of_append).allocate ?_
    intro hname hissued hblank
    rw [ofName_of_blank hblank] at hname
    subst hname
    rw [mem_issued_iff, mem_allocateAll_iff numbered_ne_part] at hissued
    obtain ⟨earlier, hearlier, hpart⟩ := hissued
    exact h rfl names name [] rfl hblank earlier hearlier hpart

/-- A name with nothing left in it gets a number alone where `part` is taken. -/
theorem not_leastFree_of_blank {a : Allocator} {name : String} (hblank : IsBlank name)
    (htaken : "part" ∈ a.issued) : ¬LeastFree a.issued (ofName name) (a.allocate name).1 := by
  have hbare : ofName name ∈ a.issued := by rwa [ofName_of_blank hblank]
  obtain ⟨i, hchoose, -⟩ := choose_of_mem hbare
  rw [fst_allocate, hchoose, numbered_of_blank hblank, ofName_of_blank hblank]
  rintro (⟨hfree, -⟩ | ⟨-, j, -, hj⟩)
  · exact hfree htaken
  · exact numberWord_ne_append _ j hj

/-- **Which requests get the least number that is free.** Those for an identifier other than `part`
all do, and those for `part` do if and only if no name with nothing left in it comes behind another
name of that identifier. -/
theorem allocateAll_numbers_least_iff (names : List String) :
    (∀ before name after, names = before ++ name :: after → ofName name ≠ "part" →
      IsLeastFree before name) ∧
    ((∀ before name after, names = before ++ name :: after → IsLeastFree before name) ↔
      BlankFirst names) := by
  refine ⟨?_, ?_, ?_⟩
  · intro before name after _ hname
    have hcounted := countedOver_allocateAll before fun hid => absurd hid hname
    rw [isLeastFree_iff]
    exact hcounted.leastFree fun hblank => hname (ofName_of_blank hblank)
  · intro h before name after hnames hblank earlier hearlier hpart
    refine not_leastFree_of_blank hblank ?_ ((isLeastFree_iff _ _).1 (h before name after hnames))
    rw [mem_issued_iff, mem_allocateAll_iff numbered_ne_part]
    exact ⟨earlier, hearlier, hpart⟩
  · intro h before name after hnames
    rw [hnames] at h
    have hcounted : (empty.allocateAll before).2.CountedOver (ofName name) :=
      countedOver_allocateAll before fun _ => h.of_append
    rw [isLeastFree_iff]
    by_cases hblank : IsBlank name
    · have hfree : ofName name ∉ (empty.allocateAll before).2.issued := by
        rw [ofName_of_blank hblank, mem_issued_iff, mem_allocateAll_iff numbered_ne_part]
        rintro ⟨earlier, hearlier, hpart⟩
        exact h before name after rfl hblank earlier hearlier hpart
      exact leastFree_of_not_mem hfree
    · exact hcounted.leastFree hblank

/-- **Two names with nothing left in them** have the identifier `part`, and the second of them is
given the word of its number alone. -/
theorem allocateAll_nameless :
    (empty.allocateAll ["", ""]).1 = ["part", "Two"] ∧ ¬IsLeastFree [""] "" := by
  refine ⟨by decide +kernel, ?_⟩
  rw [isLeastFree_iff]
  exact not_leastFree_of_blank (by decide) (by decide +kernel)

end Allocator

end Scorebook
