import Scorebook.Proofs.Source.Book
import Scorebook.Proofs.Wiring

/-!
# The output is well-formed

Whatever a score says in its names, its texts and its metadata, the definitions of the macros, the
books of the parts and the book of the score can each be read to the end: no string is left open, no
brace closes nothing, and all groups are closed. Each macro and each book is one group.

**Assembly.** A conversion is made of the parts of the score that have staves, engraved in their
order (`Conversion.Assembled`). The identifiers that the two allocators issue for them are words.

**From the outside in.** Every measure of a staff is a piece of source, so every macro is one group,
and the blocks of the staves are pieces, so every book is. Groups in a row add up.

Two texts are taken over from outside as they are: what a tremolo is called and a paper size. Both
are assumed to have no character that ends a string or a group.

Main result: `Score.engrave_closed`.
-/

namespace Scorebook

open Source

/-! ## Events of a score -/

/-- The parts of all groups, in their order. -/
def Score.parts (score : Score) : List Part :=
  score.groups.flatMap Group.parts

/-- What is written in a staff. -/
def Staff.events (staff : Staff) : List Event :=
  staff.measures.flatMap fun m => m.voices.flatten

/-- What is written in all staves of a score. -/
def Score.events (score : Score) : List Event :=
  score.parts.flatMap fun part => part.staves.flatMap Staff.events

/-- Both paper sizes may stand between quotes as they are. -/
structure Settings.PlainPaper (settings : Settings) : Prop where
  score : ∀ size ∈ settings.scorePaperSize, Quotable size
  parts : ∀ size ∈ settings.partsPaperSize, Quotable size

/-! ## Staves -/

theorem Staff.Carries.carriedAfter {earlier measures : List Measure} {carried c : List Carried}
    (hc : Carries earlier carried) (h : Staff.carriedAfter carried measures = .ok c) :
    Carries (earlier ++ measures) c := by
  induction measures generalizing earlier carried with
  | nil =>
    cases h
    simpa using hc
  | cons m measures ih =>
    obtain ⟨next, hnext, h⟩ := Except.bind_eq_ok.1 h
    obtain ⟨em, hem, rfl⟩ := Except.map_eq_ok.1 hnext
    have hrest := ih (Measure.engrave_eq_ok hc hem).2.2 h
    rwa [List.append_assoc] at hrest

/-- **Every measure of a staff is a piece.** -/
theorem Staff.Engraves.piece_measures {staff : Staff} {engraved : EngravedStaff}
    (h : staff.Engraves engraved) (hplain : ∀ e ∈ staff.events, e.PlainTremolo) :
    ∀ m ∈ engraved.measures, Piece [] 1 m 1 := by
  intro text htext
  obtain ⟨i, hi, rfl⟩ := List.getElem_of_mem htext
  have hlt : i < staff.measures.length := h.written.length_eq ▸ hi
  have hsplit : staff.measures =
      staff.measures.take i ++ staff.measures[i] :: staff.measures.drop (i + 1) := by simp
  obtain ⟨carried, em, hrun, hem, heq⟩ := h.written.text_eq _ _ _ hsplit
  rw [List.length_take_of_le hlt.le, List.getElem?_eq_getElem hi, Option.some.injEq] at heq
  rw [heq]
  refine Measure.piece_text (Staff.carries_nil.carriedAfter hrun) hem fun voice hvoice e he => ?_
  exact hplain e (List.mem_flatMap.2
    ⟨staff.measures[i], List.getElem_mem hlt, List.mem_flatten.2 ⟨voice, hvoice, he⟩⟩)

theorem exists_of_forall₂ {α β : Type} {R : α → β → Prop} {as : List α} {bs : List β}
    (h : List.Forall₂ R as bs) {b : β} (hb : b ∈ bs) : ∃ a ∈ as, R a b := by
  induction h with
  | nil => cases hb
  | cons hab _ ih =>
    rcases List.mem_cons.1 hb with rfl | hb
    · exact ⟨_, List.mem_cons_self, hab⟩
    · obtain ⟨a, ha, hab⟩ := ih hb
      exact ⟨a, List.mem_cons_of_mem _ ha, hab⟩

/-! ## Assembly -/

/-- A conversion of a score, with its parts as they are engraved. -/
structure Conversion.Assembled (score : Score) (settings : Settings) (parts : List EngravedPart)
    (c : Conversion) : Prop where
  engraves : List.Forall₂ Part.Engraves (score.parts.filter (·.staves ≠ [])) parts
  music_eq : c.music =
    String.join ((parts.flatMap EngravedPart.staves).map EngravedStaff.musicText)
  parts_eq : c.parts = String.join (parts.map fun part => part.book.text score.metadata settings)
  score_eq : ∃ rows : List (List EngravedPart), rows.flatten = parts ∧
    c.score = scoreBook (List.zipWith Assembly.groupBlock score.groups rows) score.metadata settings
  /-- The macros are called as the allocator says. -/
  macroIds_eq : macroIds parts =
    (Allocator.empty.allocateAll (score.parts.flatMap Part.macroNames)).1
  isWord_macroIds : ∀ id ∈ macroIds parts, Identifier.IsWord id
  isWord_outputSuffix : ∀ part ∈ parts, Identifier.IsWord part.outputSuffix

namespace Assembly

variable {a b : Assembly}

/-- A part takes from the allocator of the macros what its staves ask for. -/
theorem engravePart_macros {part : Part} {e : Option EngravedPart}
    (h : a.engravePart part = .ok (e, b)) :
    b.names.macros = (a.names.macros.allocateAll part.macroNames).2 := by
  obtain ⟨⟨music, skipped⟩, hmusic, h⟩ := Except.bind_eq_ok.1 h
  dsimp only at h
  by_cases hstaves : part.staves = []
  · rw [Part.name_of_staves_eq_nil hstaves] at h
    cases h
    simp [Part.macroNames, hstaves, Allocator.allocateAll]
  · obtain ⟨hwritten, -⟩ := Part.engraveStaves_eq_ok hmusic
    obtain ⟨named, -, -, -, -, -, hname⟩ := Part.name_of_staves_ne_nil hstaves hwritten a.names
    rw [hname] at h
    cases h
    rfl

theorem accumulates_macros : Accumulates fun a b parts _ =>
    b.names.macros = (a.names.macros.allocateAll (parts.flatMap Part.macroNames)).2 where
  nil _ := rfl
  add h := by
    have hmacros := engravePart_macros h
    rwa [List.flatMap_singleton]
  trans h h' := by rw [h', h, List.flatMap_append, Allocator.allocateAll_append]

theorem addGroups_macros {groups : List Group} {blocks : List String}
    (h : a.addGroups groups = .ok (blocks, b)) :
    b.names.macros =
      (a.names.macros.allocateAll ((groups.flatMap Group.parts).flatMap Part.macroNames)).2 := by
  obtain ⟨-, -, -, hmacros⟩ := accumulates_macros.addGroups h
  exact hmacros

theorem Sound.isWord_outputSuffix (h : a.Sound) :
    ∀ part ∈ a.parts, Identifier.IsWord part.outputSuffix := by
  intro part hpart
  refine h.books.isWord _ ?_
  rw [h.books_issued, List.mem_reverse]
  exact List.mem_map_of_mem hpart

end Assembly

variable {score : Score} {settings : Settings} {c : Conversion}

theorem Score.engrave_assembled (h : score.engrave settings = .ok c) :
    ∃ parts, c.Assembled score settings parts := by
  obtain ⟨⟨blocks, a⟩, hblocks, h⟩ := Except.bind_eq_ok.1 h
  cases h
  obtain ⟨rows, -, rfl, hadds⟩ := Assembly.addGroups_adds hblocks
  have hsound := hadds.sound Assembly.sound_empty
  have hparts : a.parts = rows.flatten := hadds.parts_eq
  have hmacros := hsound.macros_issued
  rw [Assembly.addGroups_macros hblocks, Allocator.issued_allocateAll] at hmacros
  refine ⟨a.parts, hparts ▸ hadds.engraves, rfl, rfl, ⟨rows, hparts.symm, rfl⟩, ?_,
    hsound.isWord, hsound.isWord_outputSuffix⟩
  simpa [Assembly.empty, Names.empty, Allocator.empty, Score.parts] using hmacros.symm

/-! ## Everything is well-formed -/

namespace Conversion.Assembled

variable {parts : List EngravedPart}

theorem isWord_ids (h : c.Assembled score settings parts) {part : EngravedPart}
    (hpart : part ∈ parts) : ∀ id ∈ part.ids, Identifier.IsWord id :=
  fun id hid => h.isWord_macroIds id (List.mem_flatMap_of_mem hpart hid)

theorem runs_musicText (h : c.Assembled score settings parts)
    (hplain : ∀ e ∈ score.events, e.PlainTremolo) :
    ∀ staff ∈ parts.flatMap EngravedPart.staves,
      Runs [] ⟨0, 0⟩ staff.musicText.toList ⟨0, 1⟩ := by
  intro staff hstaff
  obtain ⟨part, hpart, hstaff⟩ := List.mem_flatMap.1 hstaff
  obtain ⟨p, hp, hengraves⟩ := exists_of_forall₂ h.engraves hpart
  obtain ⟨s, hs, hstaves⟩ := exists_of_forall₂ hengraves.staves hstaff
  refine runs_musicMacro (h.isWord_ids hpart _ (List.mem_map_of_mem hstaff)) ?_
  exact hstaves.piece_measures fun e he => hplain e <| List.mem_flatMap.2
    ⟨p, (List.mem_filter.1 hp).1, List.mem_flatMap.2 ⟨s, hs, he⟩⟩

theorem runs_bookText (h : c.Assembled score settings parts) (hpaper : settings.PlainPaper) :
    ∀ part ∈ parts,
      Runs (macroIds parts) ⟨0, 0⟩ (part.book.text score.metadata settings).toList ⟨0, 1⟩ := by
  intro part hpart
  refine PartBook.runs_text hpaper.parts (h.isWord_outputSuffix part hpart) ?_
  exact (EngravedPart.settled_bookBlock (h.isWord_ids hpart)).piece.mono
    fun id hid => List.mem_flatMap_of_mem hpart hid

theorem runs_score (h : c.Assembled score settings parts) (hpaper : settings.PlainPaper) :
    Runs (macroIds parts) ⟨0, 0⟩ c.score.toList ⟨0, 1⟩ := by
  obtain ⟨rows, rfl, hscore⟩ := h.score_eq
  rw [hscore]
  refine runs_scoreBook hpaper.score fun block hblock => ?_
  rw [← List.map_uncurry_zip_eq_zipWith] at hblock
  obtain ⟨⟨group, row⟩, hmem, rfl⟩ := List.mem_map.1 hblock
  have hsubset := macroIds_subset_flatten (List.of_mem_zip hmem).2
  exact (Assembly.piece_groupBlock group
    fun id hid => h.isWord_macroIds id (hsubset hid)).mono hsubset

theorem runs_music (h : c.Assembled score settings parts)
    (hplain : ∀ e ∈ score.events, e.PlainTremolo) :
    Runs [] ⟨0, 0⟩ c.music.toList ⟨0, (parts.flatMap EngravedPart.staves).length⟩ := by
  rw [h.music_eq, ← List.length_map EngravedStaff.musicText]
  refine Runs.join fun text htext => ?_
  obtain ⟨staff, hstaff, rfl⟩ := List.mem_map.1 htext
  exact h.runs_musicText hplain staff hstaff

theorem runs_parts (h : c.Assembled score settings parts) (hpaper : settings.PlainPaper) :
    Runs (macroIds parts) ⟨0, 0⟩ c.parts.toList ⟨0, parts.length⟩ := by
  rw [h.parts_eq, ← List.length_map fun part => part.book.text score.metadata settings]
  refine Runs.join fun text htext => ?_
  obtain ⟨part, hpart, rfl⟩ := List.mem_map.1 htext
  exact h.runs_bookText hpaper part hpart

end Conversion.Assembled

/-- The text is read to its end, outside of strings, its braces close nothing but what they open,
and it has so many groups at the top. -/
def Source.Closed (text : String) (groups : Nat) : Prop :=
  Nests ⟨0, 0⟩ text.toList ⟨0, groups⟩

/-- **The output is closed, and each macro and each book is one group of it.** -/
theorem Score.engrave_closed (hplain : ∀ e ∈ score.events, e.PlainTremolo)
    (hpaper : settings.PlainPaper) (h : score.engrave settings = .ok c) :
    ∃ parts, c.Assembled score settings parts ∧
      (∀ staff ∈ parts.flatMap EngravedPart.staves, Closed staff.musicText 1) ∧
      (∀ part ∈ parts, Closed (part.book.text score.metadata settings) 1) ∧
      Closed c.music (parts.flatMap EngravedPart.staves).length ∧
      Closed c.parts parts.length ∧ Closed c.score 1 := by
  obtain ⟨parts, hparts⟩ := engrave_assembled h
  exact ⟨parts, hparts, fun staff hstaff => (hparts.runs_musicText hplain staff hstaff).toNests,
    fun part hpart => (hparts.runs_bookText hpaper part hpart).toNests,
    (hparts.runs_music hplain).toNests, (hparts.runs_parts hpaper).toNests,
    (hparts.runs_score hpaper).toNests⟩

/-- Quotes, backslashes, braces, percent signs and line ends in names, texts and metadata. -/
def unruly : Score where
  order := .empty
  groups := [.bracketed "winds" false
    [⟨"1", "%\"Oboe\" \x7b2\x7d\\",
      [⟨none, "a \"b\\", "\x7d\n\"", "", "wind.oboe", -1, -2, [], []⟩],
      [⟨"1", "G", [⟨false, none,
        [[.technique none (some "\\\"con\" \x7b% sord."),
          .chord ⟨"breve", 0, [⟨60, false, []⟩], some "r32", [], []⟩],
        [.rest ⟨"whole", none, 0, true⟩]]⟩]⟩]⟩]]
  metadata := ⟨.ofList [("workTitle", "\x7b\"\\")]⟩

def onA4 : Settings :=
  { Settings.standard with scorePaperSize := some "a4" }

theorem Score.engrave_unruly : (∀ e ∈ unruly.events, e.PlainTremolo) ∧ onA4.PlainPaper ∧
    ∃ c, unruly.engrave onA4 = .ok c ∧
      c.music = "oboeTwo = \x7b\n  << \x7b c'\\breve:32^\"\\\\\\\"con\\\" \x7b% sord.\" \x7d" ++
        " \\\\ \x7b r1 \x7d >> \\bar \"|.\"\n\x7d\n" ∧
      ∃ parts, c.Assembled unruly onA4 parts ∧
        (∀ staff ∈ parts.flatMap EngravedPart.staves, Closed staff.musicText 1) ∧
        (∀ part ∈ parts, Closed (part.book.text unruly.metadata onA4) 1) ∧
        Closed c.music (parts.flatMap EngravedPart.staves).length ∧
        Closed c.parts parts.length ∧ Closed c.score 1 := by
  have hplain : ∀ e ∈ unruly.events, e.PlainTremolo := by decide +kernel
  have hpaper : onA4.PlainPaper := ⟨by decide +kernel, by decide +kernel⟩
  exact ⟨hplain, hpaper, _, rfl, rfl, engrave_closed hplain hpaper rfl⟩

end Scorebook
