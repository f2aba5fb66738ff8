import Mathlib.Data.List.Chain
import Scorebook.Score.Grouping

/-!
# The groups of a score

Which groups a row of parts falls into is settled by what can be seen in the groups themselves,
without a word about how they are formed (`IsGrouping`): the parts stand in them in the given
order, a part stands alone exactly if no section is found for it, the parts of a bracket belong
to the section that the bracket is named for, and brackets that stand side by side are named for
different sections. There is one such list of groups for every row of parts, and grouping finds
it.

Main result: `groups_eq_iff_isGrouping`, which also says which section is found for a part.
-/

namespace Scorebook

/-! ## The section of an instrument -/

theorem Text.mentions_iff {s needle : String} :
    Text.mentions s needle = true ↔
      needle ≠ "" ∧ ∃ before after, s = before ++ needle ++ after := by
  simp only [Text.mentions, Bool.and_eq_true, decide_eq_true_eq, Text.occursIn_iff]
  refine and_congr_right fun _ => ⟨?_, ?_⟩
  · rintro ⟨before, after, h⟩
    refine ⟨String.ofList before, String.ofList after, String.toList_injective ?_⟩
    simpa using h
  · rintro ⟨before, after, rfl⟩
    exact ⟨before.toList, after.toList, by simp⟩

namespace Section

/-- One of the families of the section, or its id, stands in the id of the instrument. -/
def Matches (sec : Section) (instrumentId : String) : Prop :=
  ∃ name, (name ∈ sec.families ∨ name = sec.id) ∧ name ≠ "" ∧
    ∃ before after, instrumentId = before ++ name ++ after

theorem claims_iff_matches {sec : Section} {instrumentId : String} :
    sec.claims instrumentId = true ↔ sec.Matches instrumentId := by
  simp only [claims, Matches, Bool.or_eq_true, List.any_eq_true, Text.mentions_iff]
  constructor
  · rintro (⟨name, hmem, h⟩ | h)
    · exact ⟨name, .inl hmem, h⟩
    · exact ⟨sec.id, .inr rfl, h⟩
  · rintro ⟨name, hmem | rfl, h⟩
    · exact .inl ⟨name, hmem, h⟩
    · exact .inr h

theorem Matches.instrumentId_ne {sec : Section} {instrumentId : String}
    (h : sec.Matches instrumentId) : instrumentId ≠ "" := by
  obtain ⟨name, -, hne, before, after, rfl⟩ := h
  intro hblank
  exact hne (String.append_eq_empty_iff.1 (String.append_eq_empty_iff.1 hblank).1).2

/-- The section found is the first one that matches. -/
theorem find?_eq_some_iff {sections : List Section} {instrumentId : String} {sec : Section} :
    find? sections instrumentId = some sec ↔
      instrumentId ≠ "" ∧ ∃ earlier later, sections = earlier ++ sec :: later ∧
        sec.Matches instrumentId ∧ ∀ other ∈ earlier, ¬ other.Matches instrumentId := by
  rw [find?, List.find?_eq_some_iff_append]
  constructor
  · rintro ⟨hsec, earlier, later, rfl, hearlier⟩
    have hmatch := claims_iff_matches.1 hsec
    refine ⟨hmatch.instrumentId_ne, earlier, later, rfl, hmatch, ?_⟩
    intro other hmem hother
    have := hearlier other hmem
    rw [claims_iff_matches.2 hother] at this
    simp at this
  · rintro ⟨-, earlier, later, rfl, hmatch, hearlier⟩
    refine ⟨claims_iff_matches.2 hmatch, earlier, later, rfl, ?_⟩
    intro other hmem
    have : ¬ other.claims instrumentId = true := fun h =>
      hearlier other hmem (claims_iff_matches.1 h)
    simpa using this

end Section

namespace Group

/-! ## What a grouping is -/

/-- Two brackets of one section. -/
def SameSection : Group → Group → Prop
  | .bracketed id _ _, .bracketed id' _ _ => id = id'
  | _, _ => False

/-- The groups of a row of parts, as they can be told by looking at them. What decides on the
section of a part is the id of its first instrument, or the empty text if it has none: this is its
`instrumentId`. -/
structure IsGrouping (sections : List Section) (parts : List Part) (groups : List Group) :
    Prop where
  parts_eq : groups.flatMap Group.parts = parts
  ne_nil : ∀ id span, .bracketed id span [] ∉ groups
  single_iff : ∀ part, .single part ∈ groups ↔
    part ∈ parts ∧ Section.find? sections part.instrumentId = none
  section_of_mem : ∀ id span members, .bracketed id span members ∈ groups →
    ∀ part ∈ members, ∃ sec, Section.find? sections part.instrumentId = some sec ∧ sec.id = id
  span_of_head : ∀ id span part members, .bracketed id span (part :: members) ∈ groups →
    ∃ sec, Section.find? sections part.instrumentId = some sec ∧ sec.barLineSpan = span
  adjacent : groups.IsChain fun g h => ¬ g.SameSection h

variable {sections : List Section} {part : Part} {parts : List Part} {groups : List Group}

/-! ## Grouping yields a grouping -/

theorem isGrouping_nil : IsGrouping sections [] [] where
  parts_eq := rfl
  ne_nil := by simp
  single_iff := by simp
  section_of_mem := by simp
  span_of_head := by simp
  adjacent := .nil

theorem IsGrouping.cons_single (h : IsGrouping sections parts groups)
    (hfind : Section.find? sections part.instrumentId = none) :
    IsGrouping sections (part :: parts) (.single part :: groups) where
  parts_eq := by simp [Group.parts, h.parts_eq]
  ne_nil id span := by simp [h.ne_nil]
  single_iff p := by
    simp only [List.mem_cons, single.injEq, h.single_iff]
    constructor
    · rintro (rfl | ⟨hmem, hp⟩)
      · exact ⟨.inl rfl, hfind⟩
      · exact ⟨.inr hmem, hp⟩
    · rintro ⟨rfl | hmem, hp⟩
      · exact .inl rfl
      · exact .inr ⟨hmem, hp⟩
  section_of_mem id span members hmem := by
    simp only [List.mem_cons, reduceCtorEq, false_or] at hmem
    exact h.section_of_mem id span members hmem
  span_of_head id span p members hmem := by
    simp only [List.mem_cons, reduceCtorEq, false_or] at hmem
    exact h.span_of_head id span p members hmem
  adjacent := List.isChain_cons.2 ⟨fun _ _ hsame => hsame, h.adjacent⟩

/-- A bracket of its own, where the groups that follow do not begin with one of the section. -/
theorem IsGrouping.cons_open (h : IsGrouping sections parts groups) {sec : Section}
    (hfind : Section.find? sections part.instrumentId = some sec)
    (hhead : ∀ g ∈ groups.head?, ¬ (bracketed sec.id sec.barLineSpan [part]).SameSection g) :
    IsGrouping sections (part :: parts) (.bracketed sec.id sec.barLineSpan [part] :: groups) where
  parts_eq := by simp [Group.parts, h.parts_eq]
  ne_nil id span := by simp [h.ne_nil]
  single_iff p := by
    simp only [List.mem_cons, reduceCtorEq, false_or, h.single_iff]
    refine ⟨fun ⟨hmem, hp⟩ => ⟨.inr hmem, hp⟩, ?_⟩
    rintro ⟨rfl | hmem, hp⟩
    · rw [hfind] at hp
      cases hp
    · exact ⟨hmem, hp⟩
  section_of_mem id span members hmem := by
    rcases List.mem_cons.1 hmem with heq | hmem
    · cases heq
      intro p hp
      rw [List.mem_singleton.1 hp]
      exact ⟨sec, hfind, rfl⟩
    · exact h.section_of_mem id span members hmem
  span_of_head id span p members hmem := by
    rcases List.mem_cons.1 hmem with heq | hmem
    · cases heq
      exact ⟨sec, hfind, rfl⟩
    · exact h.span_of_head id span p members hmem
  adjacent := List.isChain_cons.2 ⟨hhead, h.adjacent⟩

/-- The bracket of the section that comes first takes the part in. -/
theorem IsGrouping.cons_extend {sec : Section} {span : Bool} {members : List Part}
    (h : IsGrouping sections parts (.bracketed sec.id span members :: groups))
    (hfind : Section.find? sections part.instrumentId = some sec) :
    IsGrouping sections (part :: parts)
      (.bracketed sec.id sec.barLineSpan (part :: members) :: groups) where
  parts_eq := by simpa [Group.parts] using h.parts_eq
  ne_nil id span' hmem := by
    rcases List.mem_cons.1 hmem with heq | hmem
    · cases heq
    · exact h.ne_nil id span' (List.mem_cons_of_mem _ hmem)
  single_iff p := by
    have hp := h.single_iff p
    simp only [List.mem_cons, reduceCtorEq, false_or] at hp ⊢
    rw [hp]
    refine ⟨fun ⟨hmem, hp⟩ => ⟨.inr hmem, hp⟩, ?_⟩
    rintro ⟨rfl | hmem, hp⟩
    · rw [hfind] at hp
      cases hp
    · exact ⟨hmem, hp⟩
  section_of_mem id span' ms hmem := by
    rcases List.mem_cons.1 hmem with heq | hmem
    · cases heq
      intro p hp
      rcases List.mem_cons.1 hp with rfl | hp
      · exact ⟨sec, hfind, rfl⟩
      · exact h.section_of_mem sec.id span members List.mem_cons_self p hp
    · exact h.section_of_mem id span' ms (List.mem_cons_of_mem _ hmem)
  span_of_head id span' p ms hmem := by
    rcases List.mem_cons.1 hmem with heq | hmem
    · cases heq
      exact ⟨sec, hfind, rfl⟩
    · exact h.span_of_head id span' p ms (List.mem_cons_of_mem _ hmem)
  adjacent := by
    obtain ⟨hhead, hrest⟩ := List.isChain_cons.1 h.adjacent
    -- Only the name of a bracket tells its section, so the neighbour sees no change.
    refine List.isChain_cons.2 ⟨fun g hg hsame => hhead g hg ?_, hrest⟩
    cases g <;> exact hsame

/-- Either the part joins the bracket in front, or it opens one. -/
theorem bracket_cases (sec : Section) (part : Part) (groups : List Group) :
    (∃ span members rest, groups = .bracketed sec.id span members :: rest ∧
      sec.bracket part groups = .bracketed sec.id sec.barLineSpan (part :: members) :: rest) ∨
    ((∀ g ∈ groups.head?, ¬ (bracketed sec.id sec.barLineSpan [part]).SameSection g) ∧
      sec.bracket part groups = .bracketed sec.id sec.barLineSpan [part] :: groups) := by
  match groups with
  | [] => exact .inr ⟨by simp, rfl⟩
  | .single p :: rest => exact .inr ⟨by simp [SameSection], rfl⟩
  | .bracketed id span members :: rest =>
    by_cases hid : id = sec.id
    · subst hid
      exact .inl ⟨span, members, rest, rfl, by simp [Section.bracket]⟩
    · refine .inr ⟨fun g hg hsame => ?_, by simp [Section.bracket, hid]⟩
      obtain rfl := Option.mem_some.1 hg
      exact hid hsame.symm

theorem IsGrouping.cons (h : IsGrouping sections parts groups) (part : Part) :
    IsGrouping sections (part :: parts) (Group.cons sections part groups) := by
  unfold Group.cons
  cases hfind : Section.find? sections part.instrumentId with
  | none => exact h.cons_single hfind
  | some sec =>
    show IsGrouping sections (part :: parts) (sec.bracket part groups)
    rcases bracket_cases sec part groups with ⟨span, members, rest, rfl, heq⟩ | ⟨hhead, heq⟩
    · rw [heq]
      exact h.cons_extend hfind
    · rw [heq]
      exact h.cons_open hfind hhead

theorem isGrouping_ofParts (sections : List Section) (parts : List Part) :
    IsGrouping sections parts (ofParts sections parts) := by
  induction parts with
  | nil => exact isGrouping_nil
  | cons part parts ih => exact ih.cons part

/-- Grouping loses no part and moves none. -/
@[simp] theorem flatMap_parts_ofParts (sections : List Section) (parts : List Part) :
    (ofParts sections parts).flatMap Group.parts = parts :=
  (isGrouping_ofParts sections parts).parts_eq

/-! ## There is no other grouping -/

/-- Parts of one section in a row form one bracket in front of groups that do not begin with one
of the section. -/
theorem ofParts_run {id : String}
    (hrest : ofParts sections parts = groups)
    (hhead : ∀ g ∈ groups.head?, ∀ span members, ¬ (bracketed id span members).SameSection g)
    (members : List Part) :
    ∀ (part : Part) (span : Bool),
      (∀ p ∈ part :: members,
        ∃ sec, Section.find? sections p.instrumentId = some sec ∧ sec.id = id) →
      (∃ sec, Section.find? sections part.instrumentId = some sec ∧ sec.barLineSpan = span) →
      ofParts sections (part :: members ++ parts) =
        .bracketed id span (part :: members) :: groups := by
  induction members with
  | nil =>
    rintro part span hid ⟨sec, hfind, rfl⟩
    obtain ⟨sec', hfind', rfl⟩ := hid part List.mem_cons_self
    cases hfind.symm.trans hfind'
    rw [List.cons_append, List.nil_append, ofParts_cons, hrest, Group.cons, hfind]
    rcases bracket_cases sec part groups with ⟨span, members, rest, rfl, -⟩ | ⟨-, heq⟩
    · exact absurd rfl (hhead _ rfl true [])
    · exact heq
  | cons next members ih =>
    rintro part span hid ⟨sec, hfind, rfl⟩
    obtain ⟨sec', hfind', rfl⟩ := hid part List.mem_cons_self
    cases hfind.symm.trans hfind'
    obtain ⟨secNext, hnext, -⟩ := hid next (by simp)
    have hrun := ih next secNext.barLineSpan
      (fun p hp => hid p (List.mem_cons_of_mem _ hp)) ⟨secNext, hnext, rfl⟩
    rw [List.cons_append, ofParts_cons, hrun, Group.cons, hfind]
    simp [Section.bracket]

/-- The groups behind the first one are a grouping of the parts behind it. -/
theorem IsGrouping.tail {g : Group} (h : IsGrouping sections parts (g :: groups)) :
    IsGrouping sections (groups.flatMap Group.parts) groups where
  parts_eq := rfl
  ne_nil id span hmem := h.ne_nil id span (List.mem_cons_of_mem _ hmem)
  single_iff p := by
    constructor
    · intro hmem
      refine ⟨List.mem_flatMap.2 ⟨_, hmem, by simp [Group.parts]⟩, ?_⟩
      exact ((h.single_iff p).1 (List.mem_cons_of_mem _ hmem)).2
    · rintro ⟨hmem, hfind⟩
      obtain ⟨g', hg', hp⟩ := List.mem_flatMap.1 hmem
      cases g' with
      | single q =>
        obtain rfl : p = q := by simpa [Group.parts] using hp
        exact hg'
      | bracketed id span members =>
        obtain ⟨sec, hsec, -⟩ :=
          h.section_of_mem id span members (List.mem_cons_of_mem _ hg') p hp
        rw [hfind] at hsec
        cases hsec
  section_of_mem id span members hmem :=
    h.section_of_mem id span members (List.mem_cons_of_mem _ hmem)
  span_of_head id span p members hmem :=
    h.span_of_head id span p members (List.mem_cons_of_mem _ hmem)
  adjacent := (List.isChain_cons.1 h.adjacent).2

theorem IsGrouping.eq_ofParts (h : IsGrouping sections parts groups) :
    groups = ofParts sections parts := by
  induction groups generalizing parts with
  | nil =>
    obtain rfl : [] = parts := h.parts_eq
    rfl
  | cons g rest ih =>
    obtain ⟨hhead, -⟩ := List.isChain_cons.1 h.adjacent
    have ih := ih h.tail
    rw [← h.parts_eq, List.flatMap_cons]
    cases g with
    | single p =>
      have hfind := ((h.single_iff p).1 List.mem_cons_self).2
      show _ = ofParts sections (p :: rest.flatMap Group.parts)
      rw [ofParts_cons, ← ih, Group.cons, hfind]
    | bracketed id span members =>
      cases members with
      | nil => exact absurd List.mem_cons_self (h.ne_nil id span)
      | cons p members =>
        refine (ofParts_run ih.symm (fun g hg span' ms hsame => hhead g hg ?_) members p span
          (h.section_of_mem id span _ List.mem_cons_self)
          (h.span_of_head id span p members List.mem_cons_self)).symm
        cases g <;> exact hsame

/-- **Grouping finds the one grouping there is**, and the section of a part is the first one that
matches its instrument. -/
theorem groups_eq_iff_isGrouping (sections : List Section) :
    (∀ parts groups, ofParts sections parts = groups ↔ IsGrouping sections parts groups) ∧
    ∀ instrumentId sec, Section.find? sections instrumentId = some sec ↔
      instrumentId ≠ "" ∧ ∃ earlier later, sections = earlier ++ sec :: later ∧
        sec.Matches instrumentId ∧ ∀ other ∈ earlier, ¬ other.Matches instrumentId := by
  constructor
  · intro parts groups
    constructor
    · rintro rfl
      exact isGrouping_ofParts sections parts
    · intro h
      exact h.eq_ofParts.symm
  · intro instrumentId sec
    exact Section.find?_eq_some_iff

end Group

end Scorebook
