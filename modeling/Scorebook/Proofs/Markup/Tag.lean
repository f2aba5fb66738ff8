import Mathlib.Data.List.TakeWhile
import Scorebook.Markup.Token
import Scorebook.Proofs.Source.Token

/-!
# How tags are written

What stands in a start tag behind its name is read attribute by attribute. An attribute is
written with characters of its own (`IsAttribute`) and is read from exactly those, whatever
follows, because a value ends with its own quote (`readAttribute_eq_some_iff`). The same is true
of all that is behind the name up to the bracket (`AreAttributes.read`, `exists_areAttributes`).
-/

namespace Scorebook.Markup

open Text Source

/-! ## Marks -/

theorem after?_append (mark rest : List Char) : after? mark (mark ++ rest) = some rest := by
  rw [after?, if_pos (List.isPrefixOf_iff_prefix.2 (List.prefix_append mark rest)),
    List.drop_left]

theorem after?_eq_none_iff {mark cs : List Char} : after? mark cs = none ↔ ¬ mark <+: cs := by
  unfold after?
  split_ifs with h
  · simpa using List.isPrefixOf_iff_prefix.1 h
  · simpa [List.isPrefixOf_iff_prefix] using h

/-! ## Names and attributes -/

/-- The characters of a name. -/
structure IsName (name : Name) (cs : List Char) : Prop where
  split : splitName cs = some name
  chars : ∀ c ∈ cs, isNameChar c = true

theorem IsName.exists_cons {name : Name} {cs : List Char} (h : IsName name cs) :
    ∃ c tail, cs = c :: tail ∧ isNameChar c = true := by
  cases cs with
  | nil => cases h.split
  | cons c tail => exact ⟨c, tail, rfl, h.chars c List.mem_cons_self⟩

theorem readName_eq_some_iff {cs rest : List Char} {name : Name} :
    readName cs = some (name, rest) ↔
      ∃ u, cs = u ++ rest ∧ IsName name u ∧ Stops isNameChar rest := by
  rw [readName, Option.map_eq_some_iff]
  constructor
  · rintro ⟨name', hsplit, hpair⟩
    cases hpair
    exact ⟨_, List.takeWhile_append_dropWhile.symm,
      ⟨hsplit, fun c hc => List.mem_takeWhile_imp hc⟩, stops_dropWhile _ _⟩
  · rintro ⟨u, rfl, hname, hstops⟩
    rw [takeWhile_append_stops hname.chars hstops, dropWhile_append_stops hname.chars hstops]
    exact ⟨name, hname.split, rfl⟩

theorem skipSpaces_append {spaces cs : List Char} (hspaces : ∀ c ∈ spaces, isSpace c = true)
    (hcs : Stops isSpace cs) : skipSpaces (spaces ++ cs) = cs :=
  dropWhile_append_stops hspaces hcs

theorem exists_skipSpaces (cs : List Char) :
    ∃ spaces, cs = spaces ++ skipSpaces cs ∧ ∀ c ∈ spaces, isSpace c = true :=
  ⟨_, List.takeWhile_append_dropWhile.symm, fun _ hc => List.mem_takeWhile_imp hc⟩

theorem isNameChar_eq_false_of_isSpace {c : Char} (h : isSpace c = true) :
    isNameChar c = false := by
  simp only [isSpace, Bool.or_eq_true, decide_eq_true_eq] at h
  rcases h with ((rfl | rfl) | rfl) | rfl <;> rfl

theorem isSpace_eq_false_of_isNameChar {c : Char} (h : isNameChar c = true) :
    isSpace c = false := by
  cases hc : isSpace c with
  | false => rfl
  | true => rw [isNameChar_eq_false_of_isSpace hc] at h; cases h

/-- The characters of a value with its quotes. -/
structure IsValue (value cs : List Char) : Prop where
  quoted : ∃ quote, (quote = '"' ∨ quote = '\x27') ∧ cs = quote :: (value ++ [quote]) ∧
    ∀ c ∈ value, c ≠ quote
  noTag : '<' ∉ value
  legal : value.all isLegal = true

theorem readValue_eq_some_iff {cs value rest : List Char} :
    readValue cs = some (value, rest) ↔ ∃ u, cs = u ++ rest ∧ IsValue value u := by
  cases cs with
  | nil =>
    simp only [readValue, reduceCtorEq, false_iff]
    rintro ⟨u, h, hu⟩
    obtain ⟨quote, -, rfl, -⟩ := hu.quoted
    cases h
  | cons q cs =>
    rw [readValue]
    constructor
    · intro h
      split at h
      · next hq =>
        set p : Char → Bool := fun c => c ≠ q && c ≠ '<' with hp
        have hsplit : cs = cs.takeWhile p ++ cs.dropWhile p :=
          List.takeWhile_append_dropWhile.symm
        dsimp only at h
        split at h
        · next c tail hdrop =>
          split at h
          · next hlegal =>
            obtain ⟨rfl, hlegal⟩ := hlegal
            cases h
            have hvalue : ∀ d ∈ cs.takeWhile p, d ≠ c ∧ d ≠ '<' := fun d hd => by
              simpa [hp] using List.mem_takeWhile_imp hd
            refine ⟨c :: (cs.takeWhile p ++ [c]), ?_, ⟨c, hq, rfl, fun d hd => (hvalue d hd).1⟩,
              fun hmem => (hvalue _ hmem).2 rfl, hlegal⟩
            rw [hdrop] at hsplit
            simpa using hsplit
          · cases h
        · cases h
      · cases h
    · rintro ⟨u, hcs, hu⟩
      obtain ⟨quote, hquote, rfl, hvalue⟩ := hu.quoted
      simp only [List.cons_append, List.append_assoc, List.cons.injEq] at hcs
      obtain ⟨rfl, rfl⟩ := hcs
      have hall : ∀ c ∈ value, (decide (c ≠ q) && decide (c ≠ '<')) = true := fun c hc => by
        have hne : c ≠ '<' := fun h => hu.noTag (h ▸ hc)
        simp [hvalue c hc, hne]
      have hstops : Stops (fun c => decide (c ≠ q) && decide (c ≠ '<')) (q :: rest) :=
        stops_cons (by simp) _
      rw [if_pos hquote]
      simp only [List.nil_append, takeWhile_append_stops hall hstops,
        dropWhile_append_stops hall hstops, hu.legal, and_self, if_true]

/-- The characters of an attribute. -/
inductive IsAttribute : RawAttribute → List Char → Prop
  | mk {name : Name} {value nameText valueText before behind : List Char} :
      IsName name nameText → (∀ c ∈ before, isSpace c = true) →
      (∀ c ∈ behind, isSpace c = true) → IsValue value valueText →
      IsAttribute ⟨name, value⟩ (nameText ++ (before ++ '=' :: (behind ++ valueText)))

theorem IsAttribute.exists_cons {a : RawAttribute} {cs : List Char} (h : IsAttribute a cs) :
    ∃ c tail, cs = c :: tail ∧ isNameChar c = true := by
  obtain ⟨hname, -, -, -⟩ := h
  obtain ⟨c, tail, rfl, hc⟩ := hname.exists_cons
  exact ⟨c, _, rfl, hc⟩

theorem stops_spaces_append {spaces cs : List Char} (hspaces : ∀ c ∈ spaces, isSpace c = true)
    (hcs : Stops isNameChar cs) : Stops isNameChar (spaces ++ cs) := by
  refine Stops.append (fun c hc => ?_) hcs
  exact isNameChar_eq_false_of_isSpace (hspaces c (List.mem_of_mem_head? hc))

theorem readAttribute_eq_some_iff {cs rest : List Char} {a : RawAttribute} :
    readAttribute cs = some (a, rest) ↔ ∃ u, cs = u ++ rest ∧ IsAttribute a u := by
  rw [readAttribute]
  constructor
  · intro h
    obtain ⟨⟨name, cs₁⟩, hname, h⟩ := Option.bind_eq_some_iff.1 h
    obtain ⟨cs₂, hequals, h⟩ := Option.bind_eq_some_iff.1 h
    obtain ⟨⟨value, cs₃⟩, hvalue, h⟩ := Option.bind_eq_some_iff.1 h
    cases h
    obtain ⟨nameText, rfl, hname, -⟩ := readName_eq_some_iff.1 hname
    obtain ⟨before, hcs₁, hbefore⟩ := exists_skipSpaces cs₁
    obtain ⟨behind, hcs₂, hbehind⟩ := exists_skipSpaces cs₂
    obtain ⟨valueText, hskip, hvalue⟩ := readValue_eq_some_iff.1 hvalue
    refine ⟨_, ?_, .mk hname hbefore hbehind hvalue⟩
    rw [hcs₁, eq_append_of_after? hequals]
    conv_lhs => rw [hcs₂, hskip]
    simp
  · rintro ⟨u, rfl, ⟨hname, hbefore, hbehind, hvalue⟩⟩
    rename_i name value nameText valueText before behind
    have hquote : Stops isSpace (valueText ++ rest) := by
      obtain ⟨quote, hquote, rfl, -⟩ := hvalue.quoted
      rcases hquote with rfl | rfl <;> exact stops_cons rfl _
    have hreadName : readName (nameText ++ (before ++ '=' :: (behind ++ valueText)) ++ rest) =
        some (name, before ++ '=' :: (behind ++ (valueText ++ rest))) :=
      readName_eq_some_iff.2 ⟨nameText, by simp, hname,
        stops_spaces_append hbefore (stops_cons rfl _)⟩
    have hreadValue : readValue (valueText ++ rest) = some (value, rest) :=
      readValue_eq_some_iff.2 ⟨valueText, rfl, hvalue⟩
    have hequals : after? ['='] (skipSpaces (before ++ '=' :: (behind ++ (valueText ++ rest)))) =
        some (behind ++ (valueText ++ rest)) := by
      rw [skipSpaces_append hbefore (stops_cons rfl _)]
      exact after?_append ['='] _
    simp only [hreadName, hequals, skipSpaces_append hbehind hquote, hreadValue,
      Option.bind_eq_bind, Option.bind_some]

/-- The characters of a start tag behind its name. -/
inductive AreAttributes : List RawAttribute → Bool → List Char → Prop
  | opened {spaces : List Char} : (∀ c ∈ spaces, isSpace c = true) →
      AreAttributes [] false (spaces ++ ['>'])
  | closed {spaces : List Char} : (∀ c ∈ spaces, isSpace c = true) →
      AreAttributes [] true (spaces ++ ['/', '>'])
  | cons {a : RawAttribute} {as : List RawAttribute} {closed : Bool} {spaces u us : List Char} :
      spaces ≠ [] → (∀ c ∈ spaces, isSpace c = true) → IsAttribute a u →
      AreAttributes as closed us → AreAttributes (a :: as) closed (spaces ++ (u ++ us))

theorem AreAttributes.stops {as : List RawAttribute} {closed : Bool} {us : List Char}
    (h : AreAttributes as closed us) (rest : List Char) : Stops isNameChar (us ++ rest) := by
  cases h with
  | opened hspaces =>
    rw [List.append_assoc]
    exact stops_spaces_append hspaces (stops_cons rfl _)
  | closed hspaces =>
    rw [List.append_assoc]
    exact stops_spaces_append hspaces (stops_cons rfl _)
  | cons hne hspaces _ _ =>
    obtain ⟨c, spaces, rfl⟩ := List.exists_cons_of_ne_nil hne
    exact stops_cons (isNameChar_eq_false_of_isSpace (hspaces c List.mem_cons_self)) _

theorem notMem_of_isName {name : Name} {u : List Char} (h : IsName name u) : '<' ∉ u :=
  fun hmem => absurd (h.chars _ hmem) (by decide)

theorem notMem_of_spaces {spaces : List Char} (h : ∀ c ∈ spaces, isSpace c = true) :
    '<' ∉ spaces :=
  fun hmem => absurd (h _ hmem) (by decide)

theorem IsAttribute.notMem {a : RawAttribute} {u : List Char} (h : IsAttribute a u) : '<' ∉ u := by
  obtain ⟨hname, hbefore, hbehind, hvalue⟩ := h
  obtain ⟨quote, hquote, rfl, -⟩ := hvalue.quoted
  have hne : '<' ≠ quote := by rcases hquote with rfl | rfl <;> decide
  simp [notMem_of_isName hname, notMem_of_spaces hbefore, notMem_of_spaces hbehind,
    hvalue.noTag, hne]

theorem AreAttributes.getLast_eq {as : List RawAttribute} {closed : Bool} {us : List Char}
    (h : AreAttributes as closed us) : us.getLast? = some '>' := by
  induction h with
  | opened | closed => simp
  | cons _ _ _ _ ih => simp [List.getLast?_append, ih]

theorem AreAttributes.notMem {as : List RawAttribute} {closed : Bool} {us : List Char}
    (h : AreAttributes as closed us) : '<' ∉ us := by
  induction h with
  | opened hspaces | closed hspaces => simp [notMem_of_spaces hspaces]
  | cons _ hspaces hu _ ih => simp [notMem_of_spaces hspaces, hu.notMem, ih]

theorem exists_areAttributes {fuel : Nat} {cs rest : List Char} {as : List RawAttribute}
    {closed : Bool} (h : readAttributes fuel cs = some (as, closed, rest)) :
    ∃ us, cs = us ++ rest ∧ AreAttributes as closed us := by
  induction fuel generalizing cs as with
  | zero => cases h
  | succ fuel ih =>
    obtain ⟨spaces, hcs, hspaces⟩ := exists_skipSpaces cs
    rw [readAttributes] at h
    split at h
    · next heq =>
      cases h
      exact ⟨_, by rw [hcs, heq]; simp, .opened hspaces⟩
    · next heq =>
      cases h
      exact ⟨_, by rw [hcs, heq]; simp, .closed hspaces⟩
    · split at h
      · next hhead =>
        obtain ⟨⟨a, rest₁⟩, hattribute, h⟩ := Option.bind_eq_some_iff.1 h
        obtain ⟨⟨as, closed, rest₂⟩, hattributes, h⟩ := Option.bind_eq_some_iff.1 h
        cases h
        obtain ⟨u, hskip, hu⟩ := readAttribute_eq_some_iff.1 hattribute
        obtain ⟨us, rfl, hus⟩ := ih hattributes
        have hne : spaces ≠ [] := by
          rintro rfl
          obtain ⟨c, tail, rfl, hc⟩ := hu.exists_cons
          rw [hcs, hskip] at hhead
          simp [isSpace_eq_false_of_isNameChar hc] at hhead
        exact ⟨_, by rw [hcs, hskip]; simp, .cons hne hspaces hu hus⟩
      · cases h

theorem AreAttributes.read {as : List RawAttribute} {closed : Bool} {us : List Char}
    (h : AreAttributes as closed us) {fuel : Nat} (hfuel : us.length ≤ fuel) (rest : List Char) :
    readAttributes fuel (us ++ rest) = some (as, closed, rest) := by
  induction h generalizing fuel with
  | @opened spaces hspaces =>
    obtain ⟨fuel, rfl⟩ : ∃ n, fuel = n + 1 :=
      ⟨fuel - 1, by simp only [List.length_append, List.length_singleton] at hfuel; omega⟩
    have hskip : skipSpaces (spaces ++ ['>'] ++ rest) = '>' :: rest := by
      rw [List.append_assoc]
      exact skipSpaces_append hspaces (stops_cons rfl _)
    rw [readAttributes, hskip]
    rfl
  | @closed spaces hspaces =>
    obtain ⟨fuel, rfl⟩ : ∃ n, fuel = n + 1 :=
      ⟨fuel - 1, by simp only [List.length_append, List.length_cons] at hfuel; omega⟩
    have hskip : skipSpaces (spaces ++ ['/', '>'] ++ rest) = '/' :: '>' :: rest := by
      rw [List.append_assoc]
      exact skipSpaces_append hspaces (stops_cons rfl _)
    rw [readAttributes, hskip]
    rfl
  | @cons a as closed spaces u us hne hspaces hu _ ih =>
    obtain ⟨c, spaces, rfl⟩ := List.exists_cons_of_ne_nil hne
    simp only [List.length_cons, List.length_append] at hfuel
    obtain ⟨fuel, rfl⟩ : ∃ n, fuel = n + 1 := ⟨fuel - 1, by omega⟩
    have hattribute : readAttribute (u ++ (us ++ rest)) = some (a, us ++ rest) :=
      readAttribute_eq_some_iff.2 ⟨u, rfl, hu⟩
    have hattributes : readAttributes fuel (us ++ rest) = some (as, closed, rest) := ih (by omega)
    have hspace : isSpace c = true := hspaces c List.mem_cons_self
    obtain ⟨d, tail, rfl, hd⟩ := hu.exists_cons
    have hskip : skipSpaces (c :: spaces ++ (d :: tail ++ us) ++ rest) =
        d :: tail ++ (us ++ rest) := by
      have hstops : Stops isSpace (d :: tail ++ (us ++ rest)) :=
        stops_cons (isSpace_eq_false_of_isNameChar hd) _
      simpa using skipSpaces_append hspaces hstops
    rw [readAttributes, hskip]
    split
    · next heq =>
      obtain ⟨rfl, -⟩ := List.cons.inj heq
      cases hd
    · next heq =>
      obtain ⟨rfl, -⟩ := List.cons.inj heq
      cases hd
    · simp only [List.cons_append, List.head?_cons, Option.any_some, hspace, if_true]
      rw [List.cons_append] at hattribute
      rw [hattribute]
      simp only [Option.bind_eq_bind, Option.bind_some, hattributes]

end Scorebook.Markup
