import Scorebook.Proofs.Closure

/-!
# Scores without their music

What is printed in a staff decides the text of its macro and nothing else. Take the measures out of
every staff of a score: the names, the blocks and the books stay what they are.

**Erasure.** `silent` takes the music out of a score, and out of what is engraved so far. Engraving
a silent part never fails, and it ends with the silent form of what the part itself ends with
(`Assembly.engravePart_silent`), names and allocators included. Parts and groups in a row follow.

Two scores that differ in their music have one silent form, so their runs are compared through the
run on it, and not with each other.

Main result: `Score.engrave_separates_music`.
-/

namespace Scorebook

/-! ## Erasure -/

def Staff.silent (staff : Staff) : Staff :=
  { staff with measures := [] }

def Part.silent (part : Part) : Part :=
  { part with staves := part.staves.map Staff.silent }

def Group.silent : Group → Group
  | .single part => .single part.silent
  | .bracketed id barLineSpan parts => .bracketed id barLineSpan (parts.map Part.silent)

/-- The staves of a score, through all its parts. -/
def Score.staves (score : Score) : List Staff :=
  score.parts.flatMap Part.staves

/-- Nothing but the measures of staves is different. -/
structure Score.SameButMusic (s t : Score) : Prop where
  groups : s.groups.map Group.silent = t.groups.map Group.silent
  metadata : s.metadata = t.metadata

def EngravedStaff.silent (staff : EngravedStaff) : EngravedStaff :=
  { staff with measures := [] }

def EngravedPart.silent (part : EngravedPart) : EngravedPart :=
  { part with first := part.first.silent, others := part.others.map EngravedStaff.silent }

/-- Marks that are left over belong to the music; that a part has no staves does not. -/
def Assembly.silent (a : Assembly) : Assembly :=
  ⟨a.names, a.parts.map EngravedPart.silent, a.skipped.filter (·.IsPart)⟩

theorem Group.parts_silent (group : Group) : group.silent.parts = group.parts.map Part.silent := by
  cases group <;> rfl

/-! ## What is printed of engraved parts -/

namespace EngravedStaff

variable (staff : EngravedStaff)

theorem contents_silent (margin : String) :
    staff.silent.contents margin = staff.contents margin := rfl

theorem innerBlock_silent : staff.silent.innerBlock = staff.innerBlock := rfl

theorem bareBlock_silent : staff.silent.bareBlock = staff.bareBlock := rfl

end EngravedStaff

namespace EngravedPart

variable (part : EngravedPart)

@[simp]
theorem first_silent : part.silent.first = part.first.silent := rfl

theorem staves_silent : part.silent.staves = part.staves.map EngravedStaff.silent := rfl

theorem nameLines_silent (context : String) :
    part.silent.nameLines context = part.nameLines context := rfl

theorem pianoBlock_silent : part.silent.pianoBlock = part.pianoBlock := by
  have hblocks : part.silent.staves.map EngravedStaff.innerBlock =
      part.staves.map EngravedStaff.innerBlock := by
    rw [staves_silent, List.map_map]
    exact List.map_congr_left fun staff _ => staff.innerBlock_silent
  unfold pianoBlock
  rw [nameLines_silent, hblocks]

theorem others_silent_eq_nil : part.silent.others = [] ↔ part.others = [] :=
  List.map_eq_nil_iff

theorem scoreBlock_silent : part.silent.scoreBlock = part.scoreBlock := by
  unfold scoreBlock
  by_cases hothers : part.others = []
  · rw [if_pos hothers, if_pos (part.others_silent_eq_nil.2 hothers), nameLines_silent,
      first_silent, EngravedStaff.contents_silent]
  · rw [if_neg hothers, if_neg (mt part.others_silent_eq_nil.1 hothers), pianoBlock_silent]

theorem bookBlock_silent : part.silent.bookBlock = part.bookBlock := by
  unfold bookBlock
  by_cases hothers : part.others = []
  · rw [if_pos hothers, if_pos (part.others_silent_eq_nil.2 hothers), first_silent,
      EngravedStaff.bareBlock_silent]
  · rw [if_neg hothers, if_neg (mt part.others_silent_eq_nil.1 hothers), pianoBlock_silent]

theorem book_silent : part.silent.book = part.book := by
  rw [book, book, bookBlock_silent]
  rfl

end EngravedPart

theorem Assembly.groupBlock_silent (group : Group) (parts : List EngravedPart) :
    groupBlock group.silent (parts.map EngravedPart.silent) = groupBlock group parts := by
  have hblocks : (parts.map EngravedPart.silent).map EngravedPart.scoreBlock =
      parts.map EngravedPart.scoreBlock := by
    rw [List.map_map]
    exact List.map_congr_left fun part _ => part.scoreBlock_silent
  cases group <;> simp only [groupBlock, Group.silent, hblocks]

/-! ## Naming a silent part -/

namespace Part

variable (part : Part)

theorem staves_silent_eq_nil : part.silent.staves = [] ↔ part.staves = [] :=
  List.map_eq_nil_iff

theorem macroNames_silent : part.silent.macroNames = part.macroNames := by
  simp [macroNames, silent, Function.comp_def]

/-- Staves without measures are engraved, and nothing is left over in them. -/
theorem engraveStaves_silent (id : String) (staves : List Staff) :
    engraveStaves id (staves.map Staff.silent) = .ok (staves.map fun _ => [], []) := by
  induction staves with
  | nil => rfl
  | cons staff staves ih =>
    rw [List.map_cons, engraveStaves, ih]
    rfl

theorem nameStaves_silent {music : List (List String)} (h : music.length = part.staves.length)
    (ids : List String) :
    part.silent.nameStaves (part.staves.map fun _ => []) ids =
      (part.nameStaves music ids).map EngravedStaff.silent := by
  show ((part.staves.map Staff.silent).zip _).map
    (fun (staff, measures, id) => EngravedStaff.mk id measures staff.clef part.transposition) = _
  unfold nameStaves
  generalize part.staves = staves at h
  induction staves generalizing music ids with
  | nil => rfl
  | cons staff staves ih =>
    cases music with
    | nil => cases h
    | cons texts music =>
      cases ids with
      | nil => rfl
      | cons id ids => exact congrArg (_ :: ·) (ih ids (Nat.succ.inj h))

/-- **Names do not depend on the music.** -/
theorem name_silent {music : List (List String)} (h : music.length = part.staves.length)
    (names : Names) :
    part.silent.name (part.staves.map fun _ => []) names =
      ((part.name music names).1.map EngravedPart.silent, (part.name music names).2) := by
  unfold name
  dsimp only
  rw [macroNames_silent, part.nameStaves_silent h]
  cases part.nameStaves music (names.macros.allocateAll part.macroNames).1 <;> rfl

end Part

/-! ## A silent run -/

namespace Assembly

variable {a b : Assembly}

theorem engravePart_silent {part : Part} {e : Option EngravedPart}
    (h : a.engravePart part = .ok (e, b)) :
    a.silent.engravePart part.silent = .ok (e.map EngravedPart.silent, b.silent) := by
  obtain ⟨⟨music, skipped⟩, hmusic, h⟩ := Except.bind_eq_ok.1 h
  obtain ⟨hwritten, hskipped⟩ := Part.engraveStaves_eq_ok hmusic
  have hname := part.name_silent hwritten.length_eq.symm a.names
  dsimp only at h
  cases hnamed : part.name music a.names with
  | mk engraved names
  rw [hnamed] at h hname
  cases h
  have hreports : (if part.staves = [] then [Skipped.staffless part.id] else skipped).filter
      (·.IsPart) = if part.silent.staves = [] then [Skipped.staffless part.silent.id] else [] := by
    rw [if_congr part.staves_silent_eq_nil rfl rfl]
    by_cases hstaves : part.staves = []
    · simp [hstaves, Skipped.isPart_staffless, Part.silent]
    · simpa [hstaves] using hskipped
  refine Except.bind_eq_ok.2 ⟨_, Part.engraveStaves_silent _ _, ?_⟩
  dsimp only [silent]
  rw [hname, List.filter_append, hreports]
  rfl

theorem addParts_silent {parts : List Part} {engraved : List EngravedPart}
    (h : a.addParts parts = .ok (engraved, b)) :
    a.silent.addParts (parts.map Part.silent) =
      .ok (engraved.map EngravedPart.silent, b.silent) := by
  induction parts generalizing a engraved with
  | nil =>
    cases h
    rfl
  | cons part parts ih =>
    obtain ⟨⟨e, a'⟩, he, h⟩ := Except.bind_eq_ok.1 h
    obtain ⟨⟨rest, b'⟩, hrest, h⟩ := Except.bind_eq_ok.1 h
    cases h
    refine Except.bind_eq_ok.2 ⟨_, engravePart_silent he, ?_⟩
    refine Except.bind_eq_ok.2 ⟨(rest.map EngravedPart.silent, b.silent), ?_, ?_⟩
    · have hnext := ih hrest
      cases e <;> simpa [silent] using hnext
    · cases e <;> rfl

/-- **A silent run ends with the same blocks.** -/
theorem addGroups_silent {groups : List Group} {blocks : List String}
    (h : a.addGroups groups = .ok (blocks, b)) :
    a.silent.addGroups (groups.map Group.silent) = .ok (blocks, b.silent) := by
  induction groups generalizing a blocks with
  | nil =>
    cases h
    rfl
  | cons group groups ih =>
    obtain ⟨⟨block, a'⟩, hgroup, h⟩ := Except.bind_eq_ok.1 h
    obtain ⟨⟨rest, b'⟩, hrest, h⟩ := Except.bind_eq_ok.1 h
    cases h
    obtain ⟨⟨row, a''⟩, hrow, hgroup⟩ := Except.bind_eq_ok.1 hgroup
    cases hgroup
    refine Except.bind_eq_ok.2 ⟨(groupBlock group row, a'.silent), ?_, ?_⟩
    · rw [addGroup, Group.parts_silent, addParts_silent hrow, ← groupBlock_silent]
      rfl
    · exact Except.bind_eq_ok.2 ⟨_, ih hrest, rfl⟩

theorem partsText_silent (a : Assembly) (data : Metadata) (settings : Settings) :
    a.silent.partsText data settings = a.partsText data settings := by
  have hbooks : (a.parts.map EngravedPart.silent).map (fun part => part.book.text data settings) =
      a.parts.map fun part => part.book.text data settings := by
    rw [List.map_map]
    exact List.map_congr_left fun part _ => congrArg (·.text data settings) part.book_silent
  exact congrArg String.join hbooks

end Assembly

/-! ## Staves with the same measures -/

theorem exists_getElem?_of_forall₂ {α β : Type} {R : α → β → Prop} {as : List α} {bs : List β}
    (h : List.Forall₂ R as bs) {i : Nat} {a : α} (ha : as[i]? = some a) :
    ∃ b, bs[i]? = some b ∧ R a b := by
  induction h generalizing i with
  | nil => cases ha
  | cons hab _ ih =>
    cases i with
    | zero =>
      cases ha
      exact ⟨_, rfl, hab⟩
    | succ i => exact ih ha

/-- Measures are written in one way only. -/
theorem Staff.WrittenInOrder.unique {measures : List Measure} {texts texts' : List String}
    (h : WrittenInOrder measures texts) (h' : WrittenInOrder measures texts') :
    texts = texts' := by
  refine List.ext_getElem? fun i => ?_
  by_cases hi : i < measures.length
  · have hsplit : measures = measures.take i ++ measures[i] :: measures.drop (i + 1) := by simp
    obtain ⟨carried, em, hrun, hem, htext⟩ := h.text_eq _ _ _ hsplit
    obtain ⟨carried', em', hrun', hem', htext'⟩ := h'.text_eq _ _ _ hsplit
    cases hrun.symm.trans hrun'
    cases hem.symm.trans hem'
    rw [List.length_take_of_le hi.le] at htext htext'
    rw [htext, htext']
  · rw [List.getElem?_eq_none (h.length_eq ▸ Nat.not_lt.1 hi),
      List.getElem?_eq_none (h'.length_eq ▸ Nat.not_lt.1 hi)]

theorem Staff.Engraves.musicText_eq {staff staff' : Staff} {e e' : EngravedStaff}
    (h : staff.Engraves e) (h' : staff'.Engraves e') (hid : e.id = e'.id)
    (hmeasures : staff.measures = staff'.measures) : e.musicText = e'.musicText := by
  have htexts : e.measures = e'.measures := h.written.unique (hmeasures ▸ h'.written)
  rw [EngravedStaff.musicText, EngravedStaff.musicText, hid, htexts]

/-- Parts without staves add none. -/
theorem Part.flatMap_staves_filter (parts : List Part) :
    (parts.filter (·.staves ≠ [])).flatMap staves = parts.flatMap staves := by
  induction parts with
  | nil => rfl
  | cons part parts ih =>
    by_cases hstaves : part.staves = []
    · rw [List.filter_cons_of_neg (by simpa using hstaves), ih, List.flatMap_cons, hstaves,
        List.nil_append]
    · rw [List.filter_cons_of_pos (by simpa using hstaves), List.flatMap_cons, List.flatMap_cons,
        ih]

/-! ## Two scores that differ in their music -/

/-- The definitions of the macros, in their order. -/
def macroTexts (parts : List EngravedPart) : List String :=
  (parts.flatMap EngravedPart.staves).map EngravedStaff.musicText

namespace Conversion.Assembled

variable {s t : Score} {settings : Settings} {c c' : Conversion} {parts parts' : List EngravedPart}

/-- Each staff of the score has its macro. -/
theorem engraves_staves (h : c.Assembled s settings parts) :
    List.Forall₂ Staff.Engraves s.staves (parts.flatMap EngravedPart.staves) := by
  rw [Score.staves, ← Part.flatMap_staves_filter]
  exact List.rel_flatMap h.engraves fun _ _ hpart => hpart.staves

/-- The macros of staves with the same measures are one text, if they are called the same. -/
theorem exists_macroText (h : c.Assembled s settings parts) (h' : c'.Assembled t settings parts')
    (hids : macroIds parts = macroIds parts') {i : Nat} {staff staff' : Staff}
    (hstaff : s.staves[i]? = some staff) (hstaff' : t.staves[i]? = some staff')
    (hmeasures : staff.measures = staff'.measures) :
    ∃ text, (macroTexts parts)[i]? = some text ∧ (macroTexts parts')[i]? = some text := by
  obtain ⟨e, he, hengraves⟩ := exists_getElem?_of_forall₂ h.engraves_staves hstaff
  obtain ⟨e', he', hengraves'⟩ := exists_getElem?_of_forall₂ h'.engraves_staves hstaff'
  have hid : e.id = e'.id := by
    have hall (row : List EngravedPart) :
        macroIds row = (row.flatMap EngravedPart.staves).map EngravedStaff.id := by
      rw [macroIds, List.map_flatMap]
      rfl
    have hat : (macroIds parts)[i]? = (macroIds parts')[i]? := by rw [hids]
    rw [hall, hall, List.getElem?_map, List.getElem?_map, he, he'] at hat
    exact Option.some.inj hat
  refine ⟨e.musicText, ?_, ?_⟩
  · rw [macroTexts, List.getElem?_map, he]
    rfl
  · rw [macroTexts, List.getElem?_map, he', hengraves.musicText_eq hengraves' hid hmeasures]
    rfl

end Conversion.Assembled

namespace Score

variable {s t : Score} {settings : Settings} {c c' : Conversion}

theorem SameButMusic.parts (h : s.SameButMusic t) :
    s.parts.map Part.silent = t.parts.map Part.silent := by
  have hall (score : Score) : score.parts.map Part.silent =
      (score.groups.map Group.silent).flatMap Group.parts := by
    rw [Score.parts, List.map_flatMap, List.flatMap_map]
    exact List.flatMap_congr fun group _ => group.parts_silent.symm
  rw [hall, hall, h.groups]

/-- They ask for the same names. -/
theorem SameButMusic.macroNames (h : s.SameButMusic t) :
    s.parts.flatMap Part.macroNames = t.parts.flatMap Part.macroNames := by
  have hall (parts : List Part) :
      parts.flatMap Part.macroNames = (parts.map Part.silent).flatMap Part.macroNames := by
    rw [List.flatMap_map]
    exact List.flatMap_congr fun part _ => part.macroNames_silent.symm
  rw [hall, h.parts, ← hall]

/-- The blocks and the books are those of one silent run. -/
theorem SameButMusic.engrave_eq (hst : s.SameButMusic t) (h : s.engrave settings = .ok c)
    (h' : t.engrave settings = .ok c') : c.score = c'.score ∧ c.parts = c'.parts := by
  obtain ⟨⟨blocks, a⟩, hblocks, h⟩ := Except.bind_eq_ok.1 h
  obtain ⟨⟨blocks', a'⟩, hblocks', h'⟩ := Except.bind_eq_ok.1 h'
  cases h
  cases h'
  have hrun := Assembly.addGroups_silent hblocks
  rw [hst.groups, Assembly.addGroups_silent hblocks'] at hrun
  obtain ⟨hrow, hend⟩ : blocks' = blocks ∧ a'.silent = a.silent := by simpa using hrun
  constructor
  · show scoreBook _ _ _ = scoreBook _ _ _
    rw [hrow, hst.metadata]
  · show a.partsText _ _ = a'.partsText _ _
    rw [← a.partsText_silent, ← a'.partsText_silent, hend, hst.metadata]

/-- The music and the reports are those of the assembled groups. -/
theorem map_engrave (s : Score) (settings : Settings) :
    (s.engrave settings).map (fun c => (c.music, c.skipped)) =
      (Assembly.empty.addGroups s.groups).map fun (_, a) => (a.musicText, a.skipped) := by
  unfold engrave
  cases Assembly.empty.addGroups s.groups <;> rfl

/-- **The music of a staff shows in its macro and nowhere else**, and settings and metadata do not
show in the music. -/
theorem engrave_separates_music (hst : s.SameButMusic t) (h : s.engrave settings = .ok c)
    (h' : t.engrave settings = .ok c') :
    c.score = c'.score ∧ c.parts = c'.parts ∧
      (∃ parts parts', c.Assembled s settings parts ∧ c'.Assembled t settings parts' ∧
        c.music = String.join (macroTexts parts) ∧ c'.music = String.join (macroTexts parts') ∧
        macroIds parts = macroIds parts' ∧
        ∀ (i : Nat) (staff staff' : Staff),
          s.staves[i]? = some staff → t.staves[i]? = some staff' →
          staff.measures = staff'.measures →
          ∃ text, (macroTexts parts)[i]? = some text ∧ (macroTexts parts')[i]? = some text) ∧
      ∀ (u : Score) (settings' : Settings), u.groups = s.groups →
        (u.engrave settings').map (fun c => (c.music, c.skipped)) = .ok (c.music, c.skipped) := by
  obtain ⟨hscore, hparts⟩ := hst.engrave_eq h h'
  refine ⟨hscore, hparts, ?_, ?_⟩
  · obtain ⟨parts, hassembled⟩ := engrave_assembled h
    obtain ⟨parts', hassembled'⟩ := engrave_assembled h'
    have hids : macroIds parts = macroIds parts' := by
      rw [hassembled.macroIds_eq, hassembled'.macroIds_eq, hst.macroNames]
    refine ⟨parts, parts', hassembled, hassembled', hassembled.music_eq, hassembled'.music_eq,
      hids, ?_⟩
    intro i staff staff' hstaff hstaff' hmeasures
    exact hassembled.exists_macroText hassembled' hids hstaff hstaff' hmeasures
  · intro u settings' hgroups
    rw [map_engrave, hgroups, ← map_engrave s settings, h]
    rfl

/-- A horn and an organ of two staves, of which the upper one has this in its only voice. -/
def hornAndOrgan (voice : Voice) : Score where
  order := .empty
  groups := [
    .single ⟨"1", "Horn", [⟨none, "Horn in F", "Hn.", "", "brass.horn", -4, -7, [], []⟩],
      [⟨"1", "G", [⟨false, none, [[.rest ⟨"half", none, 0, true⟩]]⟩]⟩]⟩,
    .bracketed "keyboards" true [⟨"2", "Organ", [],
      [⟨"2", "G", [⟨false, none, [voice]⟩]⟩, ⟨"3", "F", [⟨false, none, [[]]⟩]⟩]⟩]]
  metadata := ⟨.ofList [("workTitle", "Rests")]⟩

def pausing : Score := hornAndOrgan [.rest ⟨"half", none, 0, true⟩]

/-- The organ plays, with a direction that finds nothing to stand at. -/
def playing : Score :=
  hornAndOrgan [.chord ⟨"quarter", 0, [⟨67, false, []⟩], none, [], []⟩,
    .technique none (some "solo")]

theorem engrave_playing : pausing.SameButMusic playing ∧ ∃ c c',
    pausing.engrave .standard = .ok c ∧ playing.engrave .standard = .ok c' ∧
    c.music ≠ c'.music ∧ c.skipped ≠ c'.skipped ∧ c.score = c'.score ∧ c.parts = c'.parts := by
  have hsame : pausing.SameButMusic playing := ⟨rfl, rfl⟩
  have h : pausing.engrave .standard = .ok _ := rfl
  have h' : playing.engrave .standard = .ok _ := rfl
  obtain ⟨hscore, hparts, -⟩ := engrave_separates_music hsame h h'
  exact ⟨hsame, _, _, h, h', by decide +kernel, by decide +kernel, hscore, hparts⟩

end Score

end Scorebook
