import Scorebook.Proofs.BookOutline
import Scorebook.Proofs.Decorations
import Scorebook.Proofs.Reading

/-!
# Macros and the references to them

Every staff of every part is written once, as a macro, and the score and the book of its part
refer to that macro where the staff stands.

**Macros.** A macro is one block, into which the measures of its staff are put one after the other
(`Source.Defines`). What the blocks of a book refer to is told by the staves that the book holds
(`Source.IsBook`).

**Parts.** A part with staves is engraved with the same staves in the same order, each holding one
text for each of its measures (`Part.Engraves`). A part without staves is reported and leaves no
other trace (`Assembly.engravePart_adds`).

**Runs.** What holds of every part that is added, and adds up, holds of parts in a row and of groups
in a row (`Assembly.Accumulates`). So it does that they are added as what they are engraved as
(`Assembly.Adds`).

**Invariant.** The identifiers that the two allocators have issued are those of the assembled parts,
latest first (`Assembly.Sound`), so they are distinct.

Main result: `convertDocument_wires_staves`.
-/

namespace Scorebook

/-! ## One staff -/

/-- The texts of measures, one for each and in their order: each is what its measure is engraved
as, behind what is carried over from the measures in front of it. -/
structure Staff.WrittenInOrder (measures : List Measure) (texts : List String) : Prop where
  length_eq : texts.length = measures.length
  text_eq : ∀ before m after, measures = before ++ m :: after → ∃ carried em,
    carriedAfter [] before = .ok carried ∧ m.engrave carried = .ok em ∧
    texts[before.length]? = some em.text

theorem Staff.writtenInOrder_texts {place : Place} {measures : List Measure}
    {out : EngravedMeasures} (h : engraveMeasures place measures = .ok out) :
    WrittenInOrder measures out.texts := by
  obtain ⟨hlength, hall, -⟩ := engraveFrom_eq_ok carries_nil h
  refine ⟨hlength, ?_⟩
  intro before m after heq
  obtain ⟨carried, em, hrun, -, hem, htext⟩ := hall before m after heq
  exact ⟨carried, em, hrun, hem, htext⟩

/-- The staff is engraved as this, under whatever name. -/
structure Staff.Engraves (staff : Staff) (engraved : EngravedStaff) : Prop where
  clef_eq : engraved.clef = staff.clef
  written : WrittenInOrder staff.measures engraved.measures

/-- A report on a part as a whole. -/
def Skipped.IsPart (report : Skipped) : Prop :=
  report.elementType = "Part"

instance (report : Skipped) : Decidable report.IsPart :=
  inferInstanceAs (Decidable (report.elementType = "Part"))

theorem Skipped.isPart_staffless (part : String) : (staffless part).IsPart := rfl

theorem Skipped.not_isPart_unattached (place : Place) (category : Category) (mark : String) :
    ¬(unattached place category mark).IsPart := by
  have hcategory : category.elementType ≠ "Part" := by cases category <;> decide
  exact hcategory

theorem Staff.not_isPart_of_mem_skipped {place : Place} {measures : List Measure}
    {out : EngravedMeasures} (h : engraveMeasures place measures = .ok out) :
    ∀ report ∈ out.skipped, ¬report.IsPart := by
  obtain ⟨-, -, hskipped⟩ := engraveFrom_eq_ok carries_nil h
  intro report hreport
  rw [hskipped] at hreport
  obtain ⟨⟨m, number⟩, -, hreport⟩ := List.mem_flatMap.1 hreport
  obtain ⟨voice, -, hreport⟩ := List.mem_flatMap.1 hreport
  obtain ⟨⟨category, mark⟩, -, rfl⟩ := List.mem_map.1 hreport
  exact Skipped.not_isPart_unattached _ category mark

/-! ## Macros -/

/-- The text defines this name by a block with these measures in it, one after the other. -/
def Source.Defines (text id : String) (measures : List String) : Prop :=
  ∃ behind, text = id ++ " = " ++ behind ∧
    HasOutline behind (.block [""] :: measures.map (.insertion [""] false))

/-- Texts are put in one after the other, with nothing to be found between them. -/
theorem Source.exists_outline_intercalate {path : List String} {between : String}
    (h : (Position.inside path).read between.toList = ([], .inside path)) (texts : List String) :
    ∃ chunks : List Chunk, String.join (chunks.map Chunk.text) = between.intercalate texts ∧
      outline (.inside path) chunks = (texts.map (.insertion path false), .inside path) := by
  induction texts with
  | nil => exact ⟨[], rfl, rfl⟩
  | cons s texts ih =>
    cases texts with
    | nil =>
      have hone := outline_inserted s (outline_nil (.inside path))
      exact ⟨[.inserted s], by simp [Chunk.text], hone⟩
    | cons next texts =>
      obtain ⟨chunks, hjoin, houtline⟩ := ih
      refine ⟨.inserted s :: .source between :: chunks, ?_, ?_⟩
      · rw [List.map_cons, List.map_cons, String.join_cons, String.join_cons, hjoin,
          String.intercalate_cons_cons, ← String.append_assoc]
        rfl
      · exact outline_inserted s (outline_source h houtline)

theorem Source.defines_musicMacro (id : String) (measures : List String) :
    Defines (musicMacro id measures) id measures := by
  have hopen : (Position.inside []).read "\x7b\n  ".toList = ([.block [""]], .inside [""]) := by
    decide
  have hclose : (Position.inside [""]).read " \\bar \"|.\"\n\x7d\n".toList =
      ([], .inside []) := by decide
  obtain ⟨chunks, hjoin, hmeasures⟩ := exists_outline_intercalate
    (by decide : (Position.inside [""]).read " |\n  ".toList = ([], .inside [""])) measures
  have houtline := outline_source hopen
    (outline_append hmeasures (outline_source hclose (outline_nil _)))
  refine ⟨"\x7b\n  " ++ (" |\n  ".intercalate measures ++ " \\bar \"|.\"\n\x7d\n"), ?_, _, ?_,
    houtline.trans ?_⟩
  · have hsplit : " = \x7b\n  " = " = " ++ "\x7b\n  " := by decide
    rw [musicMacro, hsplit]
    simp only [String.append_assoc]
  · rw [List.map_cons, List.map_append, String.join_cons, String.join_append, hjoin]
    simp [Chunk.text]
  · simp

/-! ## One part -/

namespace Part

theorem engraveStaves_eq_ok {id : String} {staves : List Staff} {music : List (List String)}
    {skipped : List Skipped} (h : engraveStaves id staves = .ok (music, skipped)) :
    List.Forall₂ (fun staff texts => Staff.WrittenInOrder staff.measures texts) staves music ∧
      ∀ report ∈ skipped, ¬report.IsPart := by
  induction staves generalizing music skipped with
  | nil =>
    cases h
    exact ⟨.nil, by simp⟩
  | cons staff staves ih =>
    obtain ⟨out, hout, h⟩ := Except.bind_eq_ok.1 h
    obtain ⟨⟨texts, rest⟩, hrest, h⟩ := Except.bind_eq_ok.1 h
    cases h
    obtain ⟨hwritten, hskipped⟩ := ih hrest
    refine ⟨.cons (Staff.writtenInOrder_texts hout) hwritten, ?_⟩
    intro report hreport
    rcases List.mem_append.1 hreport with hreport | hreport
    · exact Staff.not_isPart_of_mem_skipped hout report hreport
    · exact hskipped report hreport

/-- The part is engraved as this: the same staves in the same order. -/
structure Engraves (part : Part) (engraved : EngravedPart) : Prop where
  trackName_eq : engraved.trackName = part.trackName
  staves : List.Forall₂ Staff.Engraves part.staves engraved.staves

theorem length_macroNames (part : Part) : part.macroNames.length = part.staves.length := by
  unfold macroNames
  split_ifs <;> simp

/-- Staves get their music and their names in the order of both. -/
theorem nameStaves_engraves (part : Part) {music : List (List String)} {ids : List String}
    (hmusic : List.Forall₂ (fun staff texts => Staff.WrittenInOrder staff.measures texts)
      part.staves music) (hids : ids.length = part.staves.length) :
    List.Forall₂ Staff.Engraves part.staves (part.nameStaves music ids) ∧
      (part.nameStaves music ids).map EngravedStaff.id = ids := by
  unfold nameStaves
  generalize part.transposition = transposition
  generalize part.staves = staves at hmusic hids
  induction hmusic generalizing ids with
  | nil =>
    obtain rfl := List.length_eq_zero_iff.1 hids
    exact ⟨.nil, rfl⟩
  | cons hstaff _ ih =>
    cases ids with
    | nil => cases hids
    | cons id ids =>
      obtain ⟨hstaves, hnames⟩ := ih (Nat.succ.inj hids)
      exact ⟨.cons ⟨rfl, hstaff⟩ hstaves, congrArg (id :: ·) hnames⟩

theorem name_of_staves_eq_nil {part : Part} (h : part.staves = []) (music : List (List String))
    (names : Names) : part.name music names = (none, names) := by
  have hstaves (ids : List String) : part.nameStaves music ids = [] := by
    rw [nameStaves, h]
    rfl
  unfold name
  dsimp only
  rw [hstaves]

/-- What naming a part with staves yields, and what it takes from the allocators. -/
theorem name_of_staves_ne_nil {part : Part} (h : part.staves ≠ []) {music : List (List String)}
    (hmusic : List.Forall₂ (fun staff texts => Staff.WrittenInOrder staff.measures texts)
      part.staves music) (names : Names) :
    ∃ engraved, part.Engraves engraved ∧
      engraved.longName = part.longName ∧ engraved.shortName = part.shortName ∧
      engraved.ids = (names.macros.allocateAll part.macroNames).1 ∧
      engraved.outputSuffix = (names.books.allocate part.trackName).1 ∧
      part.name music names =
        (some engraved, ⟨(names.macros.allocateAll part.macroNames).2,
          (names.books.allocate part.trackName).2⟩) := by
  obtain ⟨hstaves, hids⟩ := part.nameStaves_engraves hmusic
    (by rw [Allocator.length_allocateAll, length_macroNames] :
      (names.macros.allocateAll part.macroNames).1.length = part.staves.length)
  unfold name
  dsimp only
  cases hnamed : part.nameStaves music (names.macros.allocateAll part.macroNames).1 with
  | nil =>
    rw [hnamed, List.forall₂_nil_right_iff] at hstaves
    exact absurd hstaves h
  | cons first others =>
    rw [hnamed] at hstaves hids
    exact ⟨⟨part.trackName, part.longName, part.shortName, _, first, others⟩, ⟨rfl, hstaves⟩,
      rfl, rfl, hids, rfl, rfl⟩

end Part

/-! ## A run over parts -/

namespace Assembly

variable {a b c : Assembly} {parts more : List Part} {engraved others : List EngravedPart}

/-- What holds of every part that is added, whatever was assembled before, and adds up: from one
assembly to another, with the parts and with what they are engraved as. -/
structure Accumulates (P : Assembly → Assembly → List Part → List EngravedPart → Prop) : Prop where
  nil (a : Assembly) : P a a [] []
  add {a b : Assembly} {part : Part} {e : Option EngravedPart} :
    a.engravePart part = .ok (e, b) →
      P a { b with parts := b.parts ++ e.toList } [part] e.toList
  trans {a b c : Assembly} {parts more : List Part} {engraved others : List EngravedPart} :
    P a b parts engraved → P b c more others → P a c (parts ++ more) (engraved ++ others)

namespace Accumulates

variable {P : Assembly → Assembly → List Part → List EngravedPart → Prop}

/-- **Parts in a row.** -/
theorem addParts (hP : Accumulates P) (h : a.addParts parts = .ok (engraved, b)) :
    P a b parts engraved := by
  induction parts generalizing a engraved with
  | nil =>
    cases h
    exact hP.nil _
  | cons part parts ih =>
    obtain ⟨⟨e, a'⟩, he, h⟩ := Except.bind_eq_ok.1 h
    obtain ⟨⟨rest, b'⟩, hrest, h⟩ := Except.bind_eq_ok.1 h
    cases h
    exact hP.trans (hP.add he) (ih hrest)

/-- **Groups in a row.** Each group has a row of engraved parts, from which its block is made. -/
theorem addGroups (hP : Accumulates P) {groups : List Group} {blocks : List String}
    (h : a.addGroups groups = .ok (blocks, b)) :
    ∃ rows : List (List EngravedPart),
      List.Forall₂ (fun group row => ∃ a b, P a b group.parts row) groups rows ∧
      blocks = List.zipWith groupBlock groups rows ∧
      P a b (groups.flatMap Group.parts) rows.flatten := by
  induction groups generalizing a blocks with
  | nil =>
    cases h
    exact ⟨[], .nil, rfl, hP.nil _⟩
  | cons group groups ih =>
    obtain ⟨⟨block, a'⟩, hgroup, h⟩ := Except.bind_eq_ok.1 h
    obtain ⟨⟨rest, b'⟩, hrest, h⟩ := Except.bind_eq_ok.1 h
    cases h
    obtain ⟨⟨row, a''⟩, hrow, hgroup⟩ := Except.bind_eq_ok.1 hgroup
    cases hgroup
    obtain ⟨rows, hrows, rfl, hadds⟩ := ih hrest
    have hfirst := hP.addParts hrow
    exact ⟨row :: rows, .cons ⟨_, _, hfirst⟩ hrows, rfl, hP.trans hfirst hadds⟩

end Accumulates

/-- The identifiers issued are those of the assembled parts, and no two are equal. -/
structure Sound (a : Assembly) : Prop where
  macros_issued : a.names.macros.issued = (macroIds a.parts).reverse
  books_issued : a.names.books.issued = (a.parts.map EngravedPart.outputSuffix).reverse
  macros : a.names.macros.Sound
  books : a.names.books.Sound

theorem sound_empty : empty.Sound :=
  ⟨rfl, rfl, Allocator.sound_empty, Allocator.sound_empty⟩

theorem Sound.isWord (h : a.Sound) : ∀ id ∈ macroIds a.parts, Identifier.IsWord id := by
  intro id hid
  refine h.macros.isWord id ?_
  rwa [h.macros_issued, List.mem_reverse]

theorem Sound.nodup_macroIds (h : a.Sound) : (macroIds a.parts).Nodup := by
  have hnodup := h.macros.nodup
  rwa [h.macros_issued, List.nodup_reverse] at hnodup

theorem Sound.nodup_outputSuffixes (h : a.Sound) :
    (a.parts.map EngravedPart.outputSuffix).Nodup := by
  have hnodup := h.books.nodup
  rwa [h.books_issued, List.nodup_reverse] at hnodup

/-- From `a` to `b` the parts are added, those with staves engraved as these and the others
reported. -/
structure Adds (a b : Assembly) (parts : List Part) (engraved : List EngravedPart) : Prop where
  parts_eq : b.parts = a.parts ++ engraved
  engraves : List.Forall₂ Part.Engraves (parts.filter (·.staves ≠ [])) engraved
  reports_eq : b.skipped.filter (·.IsPart) = a.skipped.filter (·.IsPart) ++
    (parts.filter (·.staves = [])).map fun part => Skipped.staffless part.id
  sound : a.Sound → b.Sound

theorem Adds.trans (h : a.Adds b parts engraved) (h' : b.Adds c more others) :
    a.Adds c (parts ++ more) (engraved ++ others) where
  parts_eq := by rw [h'.parts_eq, h.parts_eq, List.append_assoc]
  engraves := by
    rw [List.filter_append]
    exact List.rel_append h.engraves h'.engraves
  reports_eq := by
    rw [h'.reports_eq, h.reports_eq, List.filter_append, List.map_append, List.append_assoc]
  sound := h'.sound ∘ h.sound

/-- **One part** is engraved and named, or reported if it has no staves. -/
theorem engravePart_adds {part : Part} {e : Option EngravedPart}
    (h : a.engravePart part = .ok (e, b)) :
    a.Adds { b with parts := b.parts ++ e.toList } [part] e.toList := by
  obtain ⟨⟨music, skipped⟩, hmusic, h⟩ := Except.bind_eq_ok.1 h
  obtain ⟨hwritten, hskipped⟩ := Part.engraveStaves_eq_ok hmusic
  by_cases hstaves : part.staves = []
  · dsimp only at h
    rw [Part.name_of_staves_eq_nil hstaves, if_pos hstaves] at h
    cases h
    refine ⟨rfl, by simp [hstaves], ?_, fun ha => ?_⟩
    · simp [hstaves, Skipped.isPart_staffless]
    · exact ⟨by simpa using ha.macros_issued, by simpa using ha.books_issued, ha.macros, ha.books⟩
  · obtain ⟨named, hengraves, -, -, hids, hsuffix, hname⟩ :=
      Part.name_of_staves_ne_nil hstaves hwritten a.names
    dsimp only at h
    rw [hname, if_neg hstaves] at h
    cases h
    refine ⟨rfl, by simpa [hstaves] using hengraves, ?_, fun ha => ?_⟩
    · have hnone : skipped.filter (·.IsPart) = [] := by simpa using hskipped
      simp [hstaves, hnone]
    · refine ⟨?_, ?_, ha.macros.allocateAll _, ha.books.allocate _⟩
      · show (a.names.macros.allocateAll part.macroNames).2.issued = _
        rw [Allocator.issued_allocateAll, ha.macros_issued, ← hids]
        simp [macroIds]
      · show (a.names.books.allocate part.trackName).2.issued = _
        rw [Allocator.issued_allocate, ha.books_issued, ← hsuffix]
        simp

theorem accumulates_adds : Accumulates Adds where
  nil _ := ⟨by simp, .nil, by simp, id⟩
  add := engravePart_adds
  trans := Adds.trans

/-- **A run over groups** adds their parts. -/
theorem addGroups_adds {groups : List Group} {blocks : List String}
    (h : a.addGroups groups = .ok (blocks, b)) :
    ∃ rows : List (List EngravedPart),
      List.Forall₂ (fun group row =>
        List.Forall₂ Part.Engraves (group.parts.filter (·.staves ≠ [])) row) groups rows ∧
      blocks = List.zipWith groupBlock groups rows ∧
      a.Adds b (groups.flatMap Group.parts) rows.flatten := by
  obtain ⟨rows, hrows, hblocks, hadds⟩ := accumulates_adds.addGroups h
  refine ⟨rows, hrows.imp ?_, hblocks, hadds⟩
  intro group row hrow
  obtain ⟨_, _, hrow⟩ := hrow
  exact hrow.engraves

end Assembly

/-! ## A whole score -/

theorem forall₂_trans {α β γ : Type} {R : α → β → Prop} {S : β → γ → Prop} {T : α → γ → Prop}
    {as : List α} {bs : List β} {cs : List γ} (h : List.Forall₂ R as bs)
    (h' : List.Forall₂ S bs cs) (htrans : ∀ a b c, R a b → S b c → T a c) :
    List.Forall₂ T as cs := by
  induction h generalizing cs with
  | nil =>
    cases h'
    exact .nil
  | cons hab _ ih =>
    cases h' with
    | cons hbc h' => exact .cons (htrans _ _ _ hab hbc) (ih h')

/-- A staff holds one text for each measure of the first staff of the score that the reference
means. -/
def EngravedStaff.ReadFrom (score reference : Node) (engraved : EngravedStaff) : Prop :=
  ∃ found, score.staff? (reference.attributeText "id") = some found ∧
    Staff.WrittenInOrder ((found.named "Measure").map Measure.ofNode) engraved.measures

/-- A part holds one staff for each of the references in its element. -/
def EngravedPart.ReadFrom (score node : Node) (engraved : EngravedPart) : Prop :=
  List.Forall₂ (EngravedStaff.ReadFrom score) (node.named "Staff") engraved.staves

theorem Part.Engraves.readFrom {score node : Node} {part : Part} {engraved : EngravedPart}
    (hread : part.ReadFrom score node) (hengraves : part.Engraves engraved) :
    engraved.ReadFrom score node := by
  refine forall₂_trans hread.staves hengraves.staves fun reference staff e hstaff he => ?_
  obtain ⟨found, hfound, hmeasures⟩ := hstaff.measures_eq
  rw [hstaff.id_eq] at hfound
  exact ⟨found, hfound, hmeasures ▸ he.written⟩

/-- The element of a part refers to staves. -/
def Node.HasStaves (part : Node) : Prop :=
  part.named "Staff" ≠ []

instance (part : Node) : Decidable part.HasStaves :=
  inferInstanceAs (Decidable (_ ≠ _))

theorem Part.ReadFrom.hasStaves_iff {score node : Node} {part : Part}
    (h : part.ReadFrom score node) : node.HasStaves ↔ part.staves ≠ [] := by
  rw [Node.HasStaves, ← List.length_pos_iff, ← List.length_pos_iff, h.staves.length_eq]

namespace Part

variable {score : Node} {nodes : List Node} {parts : List Part}

/-- The parts with staves are those whose elements refer to staves. -/
theorem forall₂_hasStaves (h : List.Forall₂ (ReadFrom score) nodes parts) :
    List.Forall₂ (ReadFrom score) (nodes.filter (·.HasStaves)) (parts.filter (·.staves ≠ [])) := by
  apply List.rel_filter _ h
  intro node part hpart
  simpa using hpart.hasStaves_iff

/-- The parts without staves are reported by the ids of their elements. -/
theorem map_staffless_eq (h : List.Forall₂ (ReadFrom score) nodes parts) :
    (parts.filter (·.staves = [])).map (fun part => Skipped.staffless part.id) =
      (nodes.filter (¬·.HasStaves)).map fun node =>
        Skipped.staffless (node.attributeText "id") := by
  have hstaffless : List.Forall₂ (ReadFrom score) (nodes.filter (¬·.HasStaves))
      (parts.filter (·.staves = [])) := by
    apply List.rel_filter _ h
    intro node part hpart
    simpa using hpart.hasStaves_iff.not_left
  rw [← List.forall₂_eq_eq_eq, List.forall₂_map_left_iff, List.forall₂_map_right_iff]
  refine hstaffless.flip.imp ?_
  intro node part hpart
  rw [hpart.id_eq]

end Part

/-- A conversion of the score that `node` holds, in which the parts of each group are engraved as
in its row. -/
structure Conversion.Wired (node : Node) (score : Score) (settings : Settings)
    (rows : List (List EngravedPart)) (c : Conversion) : Prop where
  parts : List.Forall₂ (EngravedPart.ReadFrom node) ((node.named "Part").filter (·.HasStaves))
    rows.flatten
  groups : List.Forall₂ (fun group row =>
    List.Forall₂ Part.Engraves (group.parts.filter (·.staves ≠ [])) row) score.groups rows
  music_eq : c.music =
    String.join ((rows.flatten.flatMap EngravedPart.staves).map EngravedStaff.musicText)
  parts_eq : c.parts =
    String.join (rows.flatten.map fun part => part.book.text score.metadata settings)
  score_eq : c.score =
    scoreBook (List.zipWith Assembly.groupBlock score.groups rows) score.metadata settings
  macroIds_nodup : (macroIds rows.flatten).Nodup
  outputSuffixes_nodup : (rows.flatten.map EngravedPart.outputSuffix).Nodup
  /-- Every macro is defined by the measures of its staff. -/
  macros : ∀ staff ∈ rows.flatten.flatMap EngravedPart.staves,
    Source.Defines staff.musicText staff.id staff.measures
  /-- Every staff in the book of a part refers to its macro. -/
  books : ∀ part ∈ rows.flatten, ∃ staves,
    Source.IsBook (part.book.text score.metadata settings) (some part.outputSuffix) staves ∧
      Source.references staves = part.ids.map some
  /-- The score holds the blocks of the parts, and its staves refer to all macros in the order of
  their definitions. -/
  score_book : ∃ staves, Source.IsBook c.score none staves ∧
    Source.tokens staves = (List.zipWith Group.blockTokens score.groups rows).flatten ∧
    Source.references staves = (macroIds rows.flatten).map some
  score_blocks : ∀ part ∈ rows.flatten,
    Source.references part.scoreBlock = part.ids.map some
  reports_eq : c.skipped.filter (·.IsPart) =
    ((node.named "Part").filter (¬·.HasStaves)).map fun part =>
      Skipped.staffless (part.attributeText "id")

theorem Score.engrave_wired {node : Node} {score : Score} {settings : Settings} {c : Conversion}
    (hread : List.Forall₂ (Part.ReadFrom node) (node.named "Part")
      (score.groups.flatMap Group.parts))
    (h : score.engrave settings = .ok c) : ∃ rows, c.Wired node score settings rows := by
  obtain ⟨⟨blocks, a⟩, hblocks, h⟩ := Except.bind_eq_ok.1 h
  cases h
  obtain ⟨rows, hrows, rfl, hadds⟩ := Assembly.addGroups_adds hblocks
  have hsound := hadds.sound Assembly.sound_empty
  have hparts : a.parts = rows.flatten := hadds.parts_eq
  have hword := hsound.isWord
  have hmacros := hsound.nodup_macroIds
  have hbooks := hsound.nodup_outputSuffixes
  rw [hparts] at hword hmacros hbooks
  have hids : ∀ part ∈ rows.flatten, ∀ id ∈ part.ids, Identifier.IsWord id := by
    intro part hpart id hid
    exact hword id (List.mem_flatMap_of_mem hpart hid)
  refine ⟨rows, {
    parts := ?parts
    groups := hrows
    music_eq := ?music
    parts_eq := ?books
    score_eq := rfl
    macroIds_nodup := hmacros
    outputSuffixes_nodup := hbooks
    macros := fun staff _ => Source.defines_musicMacro staff.id staff.measures
    books := ?references
    score_book := ⟨_, isBook_scoreBook score.metadata settings _, ?tokens, ?scoreReferences⟩
    score_blocks := ?blocks
    reports_eq := ?reports }⟩
  case parts =>
    exact forall₂_trans (Part.forall₂_hasStaves hread) hadds.engraves fun _ _ _ hpart =>
      Part.Engraves.readFrom hpart
  case music =>
    show a.musicText = _
    rw [Assembly.musicText, hparts]
  case books =>
    show a.partsText score.metadata settings = _
    rw [Assembly.partsText, hparts]
  case references =>
    intro part hpart
    have hstaves := (EngravedPart.refers_bookBlock (hids part hpart)).indent 4
    exact ⟨_, part.book.isBook_text score.metadata settings, hstaves.references_eq⟩
  case tokens => exact tokens_scoreFrame score.groups score.metadata settings hword
  case scoreReferences =>
    have hstaves := refers_scoreFrame score.groups score.metadata settings
      hrows.length_eq.symm hword
    exact hstaves.references_eq
  case blocks =>
    intro part hpart
    exact (EngravedPart.refers_scoreBlock (hids part hpart)).references_eq
  case reports =>
    have hreports : a.skipped.filter (·.IsPart) = _ := hadds.reports_eq
    show a.skipped.filter (·.IsPart) = _
    rw [hreports, Part.map_staffless_eq hread]
    rfl

/-- Two parts of one name, of which one has two staves, and a part without staves between them. -/
def homonyms : Node :=
  let id (s : String) : Dictionary := .ofList [("id", s)]
  let trackName (s : String) : Node := .element "trackName" .empty [.text s]
  let rest := Node.element "Rest" .empty [.element "durationType" .empty [.text "quarter"]]
  .element "museScore" .empty [.element "Score" .empty
    [.element "Part" (id "1") [trackName "Violin", .element "Staff" (id "1") []],
     .element "Part" (id "2") [trackName "Organ"],
     .element "Part" (id "3")
      [trackName "Violin", .element "Staff" (id "2") [], .element "Staff" (id "1") []],
     .element "Staff" (id "1") [.element "Measure" .empty [.element "voice" .empty [rest]]],
     .element "Staff" (id "2") []]]

end Scorebook
