import Scorebook.Proofs.Closure
import Scorebook.Proofs.Source.Assignment

/-!
# Names of instruments

Each part has a long and a short name. The block of the part in the score assigns both, and so does
its book if it has several staves; a single staff is not named there. Nothing else that is laid out
assigns a string.

**Layout.** A block assigns the names of its part as they are, whatever is in them
(`EngravedPart.assigns_scoreBlock`). But it is indented as it gets into a book, and before that if
its part stands in a section, and each time a name of several lines gets a hanging indent. So a name
is read back from the output as it is exactly if it has no line feed.

Main result: `Score.engrave_shows_names`.
-/

namespace Scorebook

open Source

/-- A long and a short name as they are assigned, after so many indentations. -/
def nameFields (widths : List Nat) (longName shortName : String) : List (String × String) :=
  [("instrumentName", hangAll widths longName),
    ("shortInstrumentName", hangAll widths shortName)]

theorem map_hang_nameFields (widths : List Nat) (width : Nat) (longName shortName : String) :
    (nameFields widths longName shortName).map (Prod.map id (hang width)) =
      nameFields (widths ++ [width]) longName shortName := by
  simp [nameFields, hangAll]

/-- **Names are assigned as they are exactly if they have no line feed**, once they are indented. -/
theorem nameFields_eq_iff {widths : List Nat} (hne : widths ≠ [])
    (hwidths : ∀ width ∈ widths, 0 < width) {longName shortName : String} :
    nameFields widths longName shortName = nameFields [] longName shortName ↔
      '\n' ∉ longName.toList ∧ '\n' ∉ shortName.toList := by
  rw [← hangAll_eq_self_iff hne hwidths, ← hangAll_eq_self_iff hne hwidths]
  simp [nameFields, hangAll]

/-! ## Staves -/

theorem assigns_clefDirective (clef : String) : Assigns (clefDirective clef).toList [] := by
  have hname : AllPlain (clefName clef).toList ∨
      clefName clef = Text.quote (String.ofList ((clefName clef).toList.filter (· ≠ '"'))) := by
    unfold clefName
    split <;> decide
  rw [clefDirective]
  rcases hname with hplain | hquoted
  · rw [String.toList_append]
    exact .plain_append (by decide) (.of_allPlain hplain)
  · rw [hquoted]
    exact Assigns.quote none ⟨by decide, by decide, fun lead => by cases lead <;> rfl⟩ _

namespace EngravedStaff

variable {staff : EngravedStaff}

theorem allPlain_reference (hid : Identifier.IsWord staff.id) :
    AllPlain staff.reference.toList := by
  have hmacro : AllPlain staff.id.toList := fun c hc =>
    isPlain_of_kind (List.all_eq_true.1 hid.2 c hc) (by decide)
  unfold reference
  cases staff.transposition with
  | none =>
    rw [String.toList_append]
    exact .append (by decide) hmacro
  | some pitch =>
    have hpitch : AllPlain pitch.text.toList := fun c hc =>
      isPlain_of_kind (Pitch.isNotePart_of_mem_text hc) (by decide)
    simp only [String.toList_append]
    exact .append (.append (.append (by decide) hpitch) (by decide)) hmacro

theorem assigns_contents {margin : String} (hid : Identifier.IsWord staff.id)
    (hmargin : AllPlain margin.toList) : Assigns (staff.contents margin).toList [] := by
  have hreference := allPlain_reference hid
  have hclef := (assigns_clefDirective staff.clef).plain_append hmargin
  unfold contents
  simp only [String.toList_append]
  refine (((hclef.append_plain (by decide)).append_plain hmargin).append_plain
    hreference).append_plain (by decide)

theorem assigns_innerBlock (hid : Identifier.IsWord staff.id) :
    Assigns staff.innerBlock.toList [] := by
  unfold innerBlock
  simp only [String.toList_append]
  exact ((assigns_contents hid (by decide)).plain_append (by decide)).append_plain (by decide)

theorem assigns_bareBlock (hid : Identifier.IsWord staff.id) :
    Assigns staff.bareBlock.toList [] := by
  unfold bareBlock
  simp only [String.toList_append]
  exact ((assigns_contents hid (by decide)).plain_append (by decide)).append_plain (by decide)

end EngravedStaff

/-! ## Parts -/

namespace EngravedPart

variable {part : EngravedPart}

theorem assigns_nameLines (part : EngravedPart) {context : String}
    (hcontext : AllPlain context.toList) :
    Assigns (part.nameLines context).toList (nameFields [] part.longName part.shortName) := by
  have hlong : Assigns (".instrumentName = " ++ Text.quote part.longName).toList
      [("instrumentName", part.longName)] :=
    .quote (some "instrumentName") ⟨by decide, by decide, fun lead => by cases lead <;> rfl⟩ _
  have hshort : Assigns (".shortInstrumentName = " ++ Text.quote part.shortName).toList
      [("shortInstrumentName", part.shortName)] :=
    .quote (some "shortInstrumentName") ⟨by decide, by decide, fun lead => by cases lead <;> rfl⟩ _
  have hfirst := (hlong.plain_append hcontext).plain_append
    (by decide : AllPlain "  \\set ".toList)
  have hsecond := (hshort.plain_append hcontext).plain_append
    (by decide : AllPlain "\n  \\set ".toList)
  have hlines := (hfirst.append hsecond).append_plain (by decide : AllPlain "\n".toList)
  simp only [← String.toList_append, ← String.append_assoc] at hlines
  exact hlines

theorem assigns_pianoBlock (h : ∀ id ∈ part.ids, Identifier.IsWord id) :
    Assigns part.pianoBlock.toList (nameFields [] part.longName part.shortName) := by
  have hstaves : Assigns (Text.joinLines (part.staves.map EngravedStaff.innerBlock)).toList
      (part.staves.flatMap fun _ => []) :=
    .joinLines_map fun staff hstaff =>
      EngravedStaff.assigns_innerBlock (h staff.id (List.mem_map_of_mem hstaff))
  have hnames := part.assigns_nameLines (by decide : AllPlain "PianoStaff".toList)
  have hblock := ((hnames.append hstaves).plain_append
    (by decide : AllPlain "\\new PianoStaff <<\n".toList)).append_plain
    (by decide : AllPlain "\n>>".toList)
  rw [List.flatMap_eq_nil_iff.2 fun _ _ => rfl, List.append_nil] at hblock
  unfold pianoBlock
  simpa only [String.toList_append, List.append_assoc] using hblock

/-- **What stands for a part in the score assigns its names**, whatever is in them. -/
theorem assigns_scoreBlock (h : ∀ id ∈ part.ids, Identifier.IsWord id) :
    Assigns part.scoreBlock.toList (nameFields [] part.longName part.shortName) := by
  unfold scoreBlock
  split_ifs with hothers
  · rw [ids_of_others_eq_nil hothers, List.forall_mem_singleton] at h
    have hnames := part.assigns_nameLines (by decide : AllPlain "Staff".toList)
    have hcontents := EngravedStaff.assigns_contents h (by decide : AllPlain "  ".toList)
    simp only [String.toList_append]
    exact ((hnames.plain_append (by decide)).append hcontents).append_plain (by decide)
  · exact assigns_pianoBlock h

/-- What stands in the book of a part assigns them if there are several staves. -/
theorem assigns_bookBlock (h : ∀ id ∈ part.ids, Identifier.IsWord id) :
    Assigns part.bookBlock.toList
      (if part.staves.length = 1 then [] else nameFields [] part.longName part.shortName) := by
  have hlength : part.staves.length = 1 ↔ part.others = [] := by simp [staves]
  unfold bookBlock
  simp only [hlength]
  split_ifs with hothers
  · rw [ids_of_others_eq_nil hothers, List.forall_mem_singleton] at h
    exact EngravedStaff.assigns_bareBlock h
  · exact assigns_pianoBlock h

end EngravedPart

/-! ## Groups -/

/-- By how much the blocks of its parts are moved inside the block of a group. -/
def Group.widths : Group → List Nat
  | .single _ => []
  | .bracketed _ _ _ => [2]

/-- **The block of a group assigns the names of its parts**, in their order. -/
theorem Assembly.assigns_groupBlock (group : Group) {parts : List EngravedPart}
    (h : ∀ part ∈ parts, ∀ id ∈ part.ids, Identifier.IsWord id) :
    Assigns (groupBlock group parts).toList
      (parts.flatMap fun part => nameFields group.widths part.longName part.shortName) := by
  have hblocks : Assigns (Text.joinLines (parts.map EngravedPart.scoreBlock)).toList
      (parts.flatMap fun part => nameFields [] part.longName part.shortName) :=
    .joinLines_map fun part hpart => EngravedPart.assigns_scoreBlock (h part hpart)
  unfold groupBlock
  cases group with
  | single _ => exact hblocks
  | bracketed _ barLineSpan _ =>
    have hopen : AllPlain ("\\new " ++ (if barLineSpan then "StaffGroup" else "ChoirStaff") ++
        " <<\n").toList := by
      cases barLineSpan <;> decide
    have hgroup := ((hblocks.indent 2).plain_append hopen).append_plain
      (by decide : AllPlain ">>".toList)
    rw [List.map_flatMap] at hgroup
    simp only [map_hang_nameFields, ← String.toList_append, ← String.append_assoc] at hgroup
    have hclose : "\n>>" = "\n" ++ ">>" := by decide
    dsimp only
    rw [hclose, ← String.append_assoc]
    exact hgroup

/-! ## A run over parts -/

/-- The part is engraved under its names, with all its staves. -/
structure Part.NamedAs (part : Part) (engraved : EngravedPart) : Prop where
  longName_eq : engraved.longName = part.longName
  shortName_eq : engraved.shortName = part.shortName
  length_staves : engraved.staves.length = part.staves.length
  isWord : ∀ id ∈ engraved.ids, Identifier.IsWord id

namespace Assembly

variable {a b : Assembly}

/-- **One part.** -/
theorem engravePart_namedAs {part : Part} {e : Option EngravedPart}
    (h : a.engravePart part = .ok (e, b)) :
    b.parts = a.parts ∧ List.Forall₂ Part.NamedAs ([part].filter (·.staves ≠ [])) e.toList := by
  obtain ⟨⟨music, skipped⟩, hmusic, h⟩ := Except.bind_eq_ok.1 h
  dsimp only at h
  by_cases hstaves : part.staves = []
  · rw [Part.name_of_staves_eq_nil hstaves] at h
    cases h
    simp [hstaves]
  · obtain ⟨hwritten, -⟩ := Part.engraveStaves_eq_ok hmusic
    obtain ⟨named, hengraves, hlong, hshort, hids, -, hname⟩ :=
      Part.name_of_staves_ne_nil hstaves hwritten a.names
    rw [hname] at h
    cases h
    refine ⟨rfl, ?_⟩
    have hword : ∀ id ∈ named.ids, Identifier.IsWord id := by
      rw [hids]
      exact fun id => Allocator.isWord_of_mem_allocateAll
    simpa [hstaves] using
      (⟨hlong, hshort, hengraves.staves.length_eq.symm, hword⟩ : part.NamedAs named)

theorem accumulates_namedAs : Accumulates fun a b parts engraved =>
    b.parts = a.parts ++ engraved ∧
      List.Forall₂ Part.NamedAs (parts.filter (·.staves ≠ [])) engraved where
  nil _ := by simp
  add h := by
    obtain ⟨hparts, hnamed⟩ := engravePart_namedAs h
    exact ⟨by rw [hparts], hnamed⟩
  trans h h' := by
    constructor
    · rw [h'.1, h.1, List.append_assoc]
    · rw [List.filter_append]
      exact List.rel_append h.2 h'.2

/-- **A run over groups** adds their parts under their names. -/
theorem addGroups_namedAs {groups : List Group} {blocks : List String}
    (h : a.addGroups groups = .ok (blocks, b)) :
    ∃ rows : List (List EngravedPart),
      List.Forall₂ (fun group row =>
        List.Forall₂ Part.NamedAs (group.parts.filter (·.staves ≠ [])) row) groups rows ∧
      blocks = List.zipWith groupBlock groups rows ∧ b.parts = a.parts ++ rows.flatten := by
  obtain ⟨rows, hrows, hblocks, hparts, -⟩ := accumulates_namedAs.addGroups h
  refine ⟨rows, hrows.imp ?_, hblocks, hparts⟩
  intro group row hrow
  obtain ⟨_, _, -, hrow⟩ := hrow
  exact hrow

end Assembly

/-! ## The whole output -/

variable {score : Score} {settings : Settings} {c : Conversion}

/-- Books in which these rows of parts are laid out, and the names that are assigned in them. -/
structure Conversion.ShowsNames (score : Score) (settings : Settings)
    (rows : List (List EngravedPart)) (c : Conversion) : Prop where
  parts_eq : c.parts =
    String.join (rows.flatten.map fun part => part.book.text score.metadata settings)
  score_eq : c.score =
    scoreBook (List.zipWith Assembly.groupBlock score.groups rows) score.metadata settings
  /-- The texts are books of the staves in which the names are read. -/
  score_isBook : IsBook c.score none
    (scoreFrame (List.zipWith Assembly.groupBlock score.groups rows) score.metadata
      settings).staves
  part_isBook : ∀ part ∈ rows.flatten,
    IsBook (part.book.text score.metadata settings) (some part.outputSuffix)
      (part.book.frame score.metadata settings).staves
  /-- In the score these are the names of all parts with staves, in their order. -/
  score_names : assignments (scoreFrame (List.zipWith Assembly.groupBlock score.groups rows)
      score.metadata settings).staves =
    score.groups.flatMap fun group => (group.parts.filter (·.staves ≠ [])).flatMap fun part =>
      nameFields (group.widths ++ [6]) part.longName part.shortName
  /-- In the book of a part with several staves they are the names of the part. -/
  book_names : List.Forall₂ (fun part engraved =>
      assignments (engraved.book.frame score.metadata settings).staves =
        if part.staves.length = 1 then [] else nameFields [4] part.longName part.shortName)
    (score.parts.filter (·.staves ≠ [])) rows.flatten

theorem Part.NamedAs.assignments_book {part : Part} {engraved : EngravedPart}
    (h : part.NamedAs engraved) (data : Metadata) (settings : Settings) :
    assignments (engraved.book.frame data settings).staves =
      if part.staves.length = 1 then [] else nameFields [4] part.longName part.shortName := by
  have hblock := ((EngravedPart.assigns_bookBlock h.isWord).indent 4).assignments_eq
  rw [assignments_append_newline, h.length_staves, h.longName_eq, h.shortName_eq,
    apply_ite (List.map _), map_hang_nameFields] at hblock
  exact hblock

/-- The names of parts are those of what they are engraved as. -/
theorem flatMap_nameFields {parts : List Part} {row : List EngravedPart}
    (h : List.Forall₂ Part.NamedAs parts row) (widths : List Nat) :
    (row.flatMap fun e => nameFields widths e.longName e.shortName) =
      parts.flatMap fun part => nameFields widths part.longName part.shortName := by
  induction h with
  | nil => rfl
  | cons hpart _ ih =>
    rw [List.flatMap_cons, List.flatMap_cons, hpart.longName_eq, hpart.shortName_eq, ih]

theorem assignments_scoreFrame {groups : List Group} {rows : List (List EngravedPart)}
    (h : List.Forall₂ (fun group row =>
      List.Forall₂ Part.NamedAs (group.parts.filter (·.staves ≠ [])) row) groups rows)
    (data : Metadata) (settings : Settings) :
    assignments (scoreFrame (List.zipWith Assembly.groupBlock groups rows) data settings).staves =
      groups.flatMap fun group => (group.parts.filter (·.staves ≠ [])).flatMap fun part =>
        nameFields (group.widths ++ [6]) part.longName part.shortName := by
  have hblocks : List.Forall₂ (fun s fields => Assigns s.toList fields)
      (List.zipWith Assembly.groupBlock groups rows)
      (groups.map fun group => (group.parts.filter (·.staves ≠ [])).flatMap fun part =>
        nameFields group.widths part.longName part.shortName) := by
    induction h with
    | nil => exact .nil
    | @cons group row _ _ hrow _ ih =>
      refine .cons ?_ ih
      dsimp only
      rw [← flatMap_nameFields hrow]
      refine Assembly.assigns_groupBlock group fun e he => ?_
      obtain ⟨part, -, hpart⟩ := exists_of_forall₂ hrow he
      exact hpart.isWord
  have hstaves := ((Assigns.joinLines hblocks).indent 6).assignments_eq
  rw [assignments_append_newline] at hstaves
  simp only [← List.flatMap_def, List.map_flatMap, map_hang_nameFields] at hstaves
  exact hstaves

/-- The rows are those in which the parts were engraved. -/
theorem Score.exists_showsNames (h : score.engrave settings = .ok c) :
    ∃ rows, c.ShowsNames score settings rows := by
  obtain ⟨⟨blocks, a⟩, hblocks, h⟩ := Except.bind_eq_ok.1 h
  cases h
  obtain ⟨rows, hrows, rfl, hparts⟩ := Assembly.addGroups_namedAs hblocks
  have hparts : a.parts = rows.flatten := hparts
  have hnamed : List.Forall₂ Part.NamedAs (score.parts.filter (·.staves ≠ [])) rows.flatten := by
    rw [Score.parts, List.filter_flatMap, List.flatMap_def]
    exact List.rel_flatten (List.forall₂_map_left_iff.2 hrows)
  refine ⟨rows, ?_, rfl, isBook_scoreBook score.metadata settings _,
    fun part _ => part.book.isBook_text score.metadata settings,
    assignments_scoreFrame hrows _ _, ?_⟩
  · show a.partsText score.metadata settings = _
    rw [Assembly.partsText, hparts]
  · exact hnamed.imp fun part e hpart => hpart.assignments_book _ _

/-- **The names of all parts are shown**, in the score and in their books, and they are shown as
they are exactly if they have no line feed. -/
theorem Score.engrave_shows_names (h : score.engrave settings = .ok c) :
    (∃ rows, c.ShowsNames score settings rows) ∧
      ∀ group ∈ score.groups, ∀ part ∈ group.parts, ∀ widths ∈ [group.widths ++ [6], [4]],
        (nameFields widths part.longName part.shortName =
            nameFields [] part.longName part.shortName ↔
          '\n' ∉ part.longName.toList ∧ '\n' ∉ part.shortName.toList) := by
  refine ⟨exists_showsNames h, ?_⟩
  intro group _ part _ widths hwidths
  simp only [List.mem_cons, List.not_mem_nil, or_false] at hwidths
  rcases hwidths with rfl | rfl
  · refine nameFields_eq_iff (by simp) fun width hwidth => ?_
    cases group <;> simp [Group.widths] at hwidth <;> omega
  · exact nameFields_eq_iff (by decide) (by simp)

/-- Quotes, backslashes, braces and a line feed in names, in a section and in a part with two
staves. -/
def duet : Score where
  order := .empty
  groups := [.bracketed "winds" true
      [⟨"1", "%\"Oboe\" \x7b2\x7d\\", [], [⟨"1", "G", []⟩]⟩, ⟨"2", "Flute", [], []⟩],
    .single ⟨"3", "Piano", [⟨none, "\"P\nno\\", "\x7d", "", "", 0, 0, [], []⟩],
      [⟨"2", "G8va", []⟩, ⟨"3", "F", []⟩]⟩]
  metadata := ⟨.ofList [("composer", "\"")]⟩

theorem Score.engrave_duet : ∃ c, duet.engrave .standard = .ok c ∧
    (∃ rows, c.ShowsNames duet .standard rows) ∧
    (∀ widths ∈ [[2, 6], [4]], nameFields widths "%\"Oboe\" \x7b2\x7d\\" "" =
      nameFields [] "%\"Oboe\" \x7b2\x7d\\" "") ∧
    ∀ widths ∈ [[6], [4]],
      nameFields widths "\"P\nno\\" "\x7d" ≠ nameFields [] "\"P\nno\\" "\x7d" := by
  refine ⟨_, rfl, ?_⟩
  obtain ⟨hshows, hiff⟩ := engrave_shows_names (rfl : duet.engrave .standard = .ok _)
  refine ⟨hshows, fun widths hwidths => ?_, fun widths hwidths heq => ?_⟩
  · exact (hiff _ List.mem_cons_self _ List.mem_cons_self widths hwidths).2 (by decide)
  · have hpiano := hiff _ (List.mem_cons_of_mem _ List.mem_cons_self) _ List.mem_cons_self
    exact absurd ((hpiano widths hwidths).1 heq) (by decide)

/-- A part alone, with a name of two lines. -/
def flute : Score where
  order := .empty
  groups := [.single ⟨"1", "Flute", [⟨none, "Flute\nI", "Fl.", "", "", 0, 0, [], []⟩],
    [⟨"1", "G", []⟩]⟩]
  metadata := ⟨.ofList []⟩

/-- **Its second line is read with the blanks of the indentation.** -/
theorem Score.engrave_flute : ∃ c rows, flute.engrave .standard = .ok c ∧
    flute.parts.map Part.longName = ["Flute\nI"] ∧
    c.score = scoreBook (List.zipWith Assembly.groupBlock flute.groups rows) flute.metadata
      .standard ∧
    IsBook c.score none (scoreFrame (List.zipWith Assembly.groupBlock flute.groups rows)
      flute.metadata .standard).staves ∧
    assignments (scoreFrame (List.zipWith Assembly.groupBlock flute.groups rows) flute.metadata
      .standard).staves =
        [("instrumentName", "Flute\n      I"), ("shortInstrumentName", "Fl.")] := by
  obtain ⟨c, hc⟩ : ∃ c, flute.engrave .standard = .ok c := ⟨_, rfl⟩
  obtain ⟨rows, hrows⟩ := exists_showsNames hc
  refine ⟨c, rows, hc, rfl, hrows.score_eq, hrows.score_isBook, ?_⟩
  rw [hrows.score_names]
  decide

end Scorebook
