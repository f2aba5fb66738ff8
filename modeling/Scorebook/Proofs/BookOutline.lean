import Scorebook.Proofs.Source.Book
import Scorebook.Proofs.Source.Outline
import Scorebook.Proofs.Trimming

/-!
# What is in a book

A book tells a paper size and a staff size exactly if they are chosen, each in a block of its own.
Its header is read back as what the metadata say: every field has the text of the first of its tags
that holds more than blanks, cleared of the blanks around it (`Metadata.Shows`), and a field without
such a tag is left out. The book of a part names the instrument besides, so it always has a header.
The book of the score has one exactly if there is a field to put into it.

**Insertions.** The paper size, the suffix of the file and the staves are put in as they are.
Whatever is in them, they stand where they belong, and the rest of the book is read as if they were
not there. So a text is a book of certain staves if they are what is put into its score, and if it
holds nothing that such a book does not hold (`IsBook`).

Main result: `books_tell_settings_and_metadata`.
-/

namespace Scorebook

open Source

namespace Frame

/-! ## Blocks of a frame -/

/-- What is found of a paper size. -/
def paperItems (paperSize : Option String) : List Item :=
  match paperSize with
  | none => []
  | some size => [.block ["book", "paper"], .insertion ["book", "paper"] true size]

/-- What is found of a header. -/
def headerItems (fields : List (String × String)) : List Item :=
  .block ["book", "header"] ::
    fields.map fun (key, value) => .field ["book", "header"] key value

/-- What is found of a staff size. -/
def layoutItems (staffSize : Option Float) : List Item :=
  match staffSize with
  | none => []
  | some _ => [.block ["book", "score", "layout"]]

/-- A header line may start with this word. -/
def IsKey (key : String) : Prop :=
  (Position.inside ["book", "header"]).read ("    " ++ key ++ " = \"").toList =
    ([], ⟨["book", "header"], none, .literal, .literal (some key) []⟩)

instance (key : String) : Decidable (IsKey key) :=
  inferInstanceAs (Decidable (_ = _))

theorem read_headerLine {key : String} (h : IsKey key) (value : String) :
    (Position.inside ["book", "header"]).read (headerLine (key, value)).toList =
      ([.field ["book", "header"] key value], .inside ["book", "header"]) := by
  have hsplit : (" = \"" : String) = " = " ++ "\"" := by decide
  have hfront := h
  rw [IsKey, hsplit, ← String.append_assoc] at hfront
  have hbreak : (Position.inside ["book", "header"]).read "\n".toList =
      ([], .inside ["book", "header"]) := by decide
  exact read_append_string (read_assigned hfront value) hbreak

theorem read_headerLines {fields : List (String × String)} (h : ∀ field ∈ fields, IsKey field.1) :
    (Position.inside ["book", "header"]).read (String.join (fields.map headerLine)).toList =
      (fields.map fun (key, value) => .field ["book", "header"] key value,
        .inside ["book", "header"]) := by
  induction fields with
  | nil => rfl
  | cons field fields ih =>
    rw [List.forall_mem_cons] at h
    rw [List.map_cons, String.join_cons, read_append_string (read_headerLine h.1 field.2) (ih h.2)]
    rfl

variable {f : Frame}

/-- **The header is read as its fields**, whatever their values are. -/
theorem read_headerBlock (h : ∀ field ∈ f.header, IsKey field.1) :
    (Position.inside ["book"]).read f.headerBlock.toList =
      (headerItems f.header, .inside ["book"]) := by
  have hopen : (Position.inside ["book"]).read "  \\header \x7b\n".toList =
      ([.block ["book", "header"]], .inside ["book", "header"]) := by decide
  have hclose : (Position.inside ["book", "header"]).read "  \x7d\n".toList =
      ([], .inside ["book"]) := by decide
  have hread := read_append_string (read_append_string hopen (read_headerLines h)) hclose
  rwa [List.append_nil] at hread

/-- In ordinary text nothing is found, and its last characters may be a word. -/
theorem read_ordinary {s : String} (h : Ordinary s) (path : List String)
    (command? : Option String) (lead : Lead) :
    ∃ command' lead', Position.read ⟨path, command?, .plain, .plain lead⟩ s.toList =
      ([], ⟨path, command', .plain, .plain lead'⟩) := by
  unfold Ordinary at h
  generalize s.toList = cs at h
  induction cs generalizing command? lead with
  | nil => exact ⟨command?, lead, rfl⟩
  | cons c cs ih =>
    rw [List.forall_mem_cons] at h
    obtain ⟨hquote, -, hopen, hclose⟩ := ne_of_isOrdinary h.1
    have hnext : ∃ command', Position.next ⟨path, command?, .plain, .plain lead⟩ c =
        ([], ⟨path, command', .plain, .plain (lead.next c)⟩) := by
      have hcursor : Cursor.step (.plain lead) c = (none, .plain (lead.next c)) := if_neg hquote
      unfold Position.next
      dsimp only
      rw [step_of_isOrdinary h.1, hcursor]
      split_ifs
      · exact ⟨command?, rfl⟩
      · refine ⟨none, ?_⟩
        simp [Position.tokens, Position.token, hopen, hclose]
    obtain ⟨command', hc⟩ := hnext
    obtain ⟨command'', lead'', hcs⟩ := ih command' (lead.next c) h.2
    refine ⟨command'', lead'', ?_⟩
    rw [Position.read, hc, hcs]
    rfl

theorem read_layoutBlock (f : Frame) :
    (Position.inside ["book", "score"]).read f.layoutBlock.toList =
      (layoutItems f.staffSize, .inside ["book", "score"]) := by
  unfold layoutBlock layoutItems
  cases f.staffSize with
  | none => rfl
  | some size =>
    have hopen : (Position.inside ["book", "score"]).read
        "    \\layout \x7b\n      #(layout-set-staff-size ".toList =
          ([.block ["book", "score", "layout"]],
            ⟨["book", "score", "layout"], none, .plain, .plain (.spaced "size".toList)⟩) := by
      decide
    obtain ⟨command', lead', hsize⟩ := read_ordinary (ordinary_staffSizeText size)
      ["book", "score", "layout"] none (.spaced "size".toList)
    have hmark : Position.read ⟨["book", "score", "layout"], command', .plain, .plain lead'⟩
        ")".toList = ([], .inside ["book", "score", "layout"]) := by
      cases lead' <;> rfl
    have hclose : (Position.inside ["book", "score", "layout"]).read "\n    \x7d\n".toList =
        ([], .inside ["book", "score"]) := by decide
    have hbehind : ")\n    \x7d\n" = ")" ++ "\n    \x7d\n" := by decide
    dsimp only
    rw [hbehind]
    exact read_append_string (read_append_string hopen hsize) (read_append_string hmark hclose)

/-! ## Chunks of a frame -/

/-- The paper block, its size being put in. -/
def paperChunks (f : Frame) : List Chunk :=
  match f.paperSize with
  | none => []
  | some size =>
    [.source "  \\paper \x7b\n    #(set-paper-size \"", .inserted size, .source "\")\n  \x7d\n"]

theorem join_paperChunks (f : Frame) :
    String.join (f.paperChunks.map Chunk.text) = f.paperBlock := by
  unfold paperChunks paperBlock
  cases f.paperSize <;> simp [Chunk.text, String.append_assoc]

theorem outline_paperChunks (f : Frame) :
    outline (.inside ["book"]) f.paperChunks = (paperItems f.paperSize, .inside ["book"]) := by
  unfold paperChunks paperItems
  cases f.paperSize with
  | none => rfl
  | some size =>
    have hopen : (Position.inside ["book"]).read "  \\paper \x7b\n    #(set-paper-size \"".toList =
        ([.block ["book", "paper"]], ⟨["book", "paper"], none, .literal, .literal none []⟩) := by
      decide
    have hclose : Position.read ⟨["book", "paper"], none, .literal, .literal none []⟩
        "\")\n  \x7d\n".toList = ([], .inside ["book"]) := by decide
    exact outline_source hopen (outline_inserted size (outline_source hclose (outline_nil _)))

/-- The end of a book behind its staves. -/
theorem read_bookEnd (f : Frame) (front : String)
    (h : (Position.inside ["book", "score"]).read front.toList = ([], .inside ["book", "score"])) :
    (Position.inside ["book", "score"]).read (front ++ f.layoutBlock ++ "  \x7d\n\x7d\n").toList =
      (layoutItems f.staffSize, .inside []) := by
  have hclose : (Position.inside ["book", "score"]).read "  \x7d\n\x7d\n".toList =
      ([], .inside []) := by decide
  have hread := read_append_string (read_append_string h f.read_layoutBlock) hclose
  rwa [List.append_nil, List.nil_append] at hread

theorem read_bookStart : (Position.inside []).read "\\book \x7b\n".toList =
    ([.block ["book"]], .inside ["book"]) := by
  decide

theorem read_scoreStart {front : String} {p : Position} {items : List Item}
    (h : p.read front.toList = (items, .inside ["book"])) :
    p.read (front ++ "  \\score \x7b\n").toList =
      (items ++ [.block ["book", "score"]], .inside ["book", "score"]) := by
  have hopen : (Position.inside ["book"]).read "  \\score \x7b\n".toList =
      ([.block ["book", "score"]], .inside ["book", "score"]) := by decide
  exact read_append_string h hopen

/-- **The book of a part** has a paper size and a staff size if they are set, and its header. -/
theorem hasOutline_partText (h : ∀ field ∈ f.header, IsKey field.1) (outputSuffix : String) :
    HasOutline (f.partText outputSuffix)
      ([.block ["book"]] ++ paperItems f.paperSize ++ [.insertion ["book"] true outputSuffix] ++
        headerItems f.header ++
        [.block ["book", "score"], .insertion ["book", "score"] false f.staves] ++
        layoutItems f.staffSize) := by
  have hsuffix : (Position.inside ["book"]).read "  \\bookOutputSuffix \"".toList =
      ([], ⟨["book"], some "bookOutputSuffix", .literal, .literal none []⟩) := by decide
  have hline : Position.read ⟨["book"], some "bookOutputSuffix", .literal, .literal none []⟩
      "\"\n".toList = ([], .inside ["book"]) := by decide
  have hheader := read_scoreStart (read_append_string hline (read_headerBlock h))
  have hend := f.read_bookEnd "\n" (by decide)
  have houtline := outline_source read_bookStart (outline_append f.outline_paperChunks
    (outline_source hsuffix (outline_inserted outputSuffix
      (outline_source hheader (outline_inserted f.staves (outline_source hend (outline_nil _)))))))
  refine ⟨_, ?_, houtline.trans ?_⟩
  · unfold partText
    simp only [List.map_cons, List.map_append, List.map_nil, String.join_cons, String.join_append,
      String.join_nil, join_paperChunks, Chunk.text, String.append_assoc, String.append_empty]
  · simp [Position.inside]

/-- **The book of the score** has a header only if there is a field for it. -/
theorem hasOutline_scoreText (h : ∀ field ∈ f.header, IsKey field.1) :
    HasOutline f.scoreText
      ([.block ["book"]] ++ paperItems f.paperSize ++
        (if f.header = [] then [] else headerItems f.header) ++
        [.block ["book", "score"], .insertion ["book", "score"] false f.staves] ++
        layoutItems f.staffSize) := by
  have hheader : (Position.inside ["book"]).read
      (if f.header = [] then "" else "\n" ++ f.headerBlock).toList =
        (if f.header = [] then [] else headerItems f.header, .inside ["book"]) := by
    split_ifs
    · rfl
    · have hbreak : (Position.inside ["book"]).read "\n".toList = ([], .inside ["book"]) := by
        decide
      exact read_append_string hbreak (read_headerBlock h)
  have hangle : (Position.inside ["book", "score"]).read "    <<\n".toList =
      ([], .inside ["book", "score"]) := by decide
  have hstart := read_append_string (read_scoreStart hheader) hangle
  have hend := f.read_bookEnd "\n    >>\n" (by decide)
  have houtline := outline_source read_bookStart (outline_append f.outline_paperChunks
    (outline_source hstart (outline_inserted f.staves (outline_source hend (outline_nil _)))))
  refine ⟨_, ?_, houtline.trans ?_⟩
  · have hscore : "  \\score \x7b\n    <<\n" = "  \\score \x7b\n" ++ "    <<\n" := by decide
    unfold scoreText
    rw [hscore]
    simp only [List.map_cons, List.map_append, List.map_nil, String.join_cons, String.join_append,
      String.join_nil, join_paperChunks, Chunk.text, String.append_assoc, String.append_empty]
  · simp [Position.inside]

end Frame

/-! ## Fields of a header -/

/-- The keys that both kinds of book have in common, each with its tags in the order in which they
are looked for. -/
def titleKeys : List (String × List String) :=
  [("title", ["workTitle", "movementTitle"]), ("subtitle", ["subtitle"]),
    ("composer", ["composer"]), ("lyricist", ["lyricist"]), ("arranger", ["arranger"])]

namespace Metadata

/-- The first of these tags that holds more than blanks, cleared of the blanks around it. -/
def shown? (data : Metadata) (tags : List String) : Option String :=
  ((tags.filterMap data.tags.get?).map Text.trim).find? (· ≠ "")

/-- What is shown under these keys; a key with nothing to show is left out. -/
def shownFields (data : Metadata) (keys : List (String × List String)) :
    List (String × String) :=
  keys.filterMap fun (key, tags) => (data.shown? tags).map (key, ·)

/-- The first of these tags that holds more than blanks holds this text, with nothing but blanks
around it. -/
def Shows (data : Metadata) (tags : List String) (value : String) : Prop :=
  value ≠ "" ∧ ∃ earlier tag later s, tags = earlier ++ tag :: later ∧
    data.tags.get? tag = some s ∧ Text.Trims s value ∧
    ∀ other ∈ earlier, ∀ t, data.tags.get? other = some t → ∀ c ∈ t.toList, Text.isBlank c = true

theorem tag?_eq_some_iff {data : Metadata} {tag value : String} :
    data.tag? tag = some value ↔
      value ≠ "" ∧ ∃ s, data.tags.get? tag = some s ∧ Text.Trims s value := by
  rw [tag?, Option.filter_eq_some_iff, Option.map_eq_some_iff, decide_eq_true_eq, and_comm]
  refine and_congr_right fun _ => exists_congr fun s => and_congr_right fun _ => ?_
  constructor
  · rintro rfl
    exact Text.trims_trim s
  · intro h
    exact h.eq_trim.symm

theorem tag?_eq_none_iff {data : Metadata} {tag : String} :
    data.tag? tag = none ↔
      ∀ s, data.tags.get? tag = some s → ∀ c ∈ s.toList, Text.isBlank c = true := by
  rw [tag?]
  cases data.tags.get? tag with
  | none => simp
  | some s =>
    have hblank := (Text.trims_trim s).eq_empty_iff
    simpa using hblank

theorem shown?_eq_findSome? (data : Metadata) (tags : List String) :
    data.shown? tags = tags.findSome? data.tag? := by
  unfold shown?
  induction tags with
  | nil => rfl
  | cons tag tags ih =>
    rw [List.findSome?_cons, List.filterMap_cons, tag?]
    cases data.tags.get? tag with
    | none => exact ih
    | some s =>
      rw [List.map_cons, List.find?_cons, Option.map_some, Option.filter_some, ih]
      by_cases hs : Text.trim s = "" <;> simp [hs]

/-- **What is shown is told without looking for it.** -/
theorem shown?_eq_some_iff {data : Metadata} {tags : List String} {value : String} :
    data.shown? tags = some value ↔ data.Shows tags value := by
  rw [shown?_eq_findSome?, List.findSome?_eq_some_iff]
  simp only [tag?_eq_some_iff, tag?_eq_none_iff]
  constructor
  · rintro ⟨earlier, tag, later, heq, ⟨hne, s, hs, htrims⟩, hearlier⟩
    exact ⟨hne, earlier, tag, later, s, heq, hs, htrims, hearlier⟩
  · rintro ⟨hne, earlier, tag, later, s, heq, hs, htrims, hearlier⟩
    exact ⟨earlier, tag, later, heq, ⟨hne, s, hs, htrims⟩, hearlier⟩

theorem shown?_singleton (data : Metadata) (tag : String) : data.shown? [tag] = data.tag? tag := by
  rw [shown?_eq_findSome?]
  cases h : data.tag? tag <;> simp [h]

/-- A last key with one tag. -/
theorem shownFields_concat (data : Metadata) (keys : List (String × List String))
    (key tag : String) : data.shownFields (keys ++ [(key, [tag])]) =
      data.shownFields keys ++ ((data.tag? tag).map (key, ·)).toList := by
  unfold shownFields
  rw [List.filterMap_append, ← shown?_singleton]
  cases h : data.shown? [tag] <;> simp [h]

/-- **A header shows what the tags say.** -/
theorem presentFields_eq (data : Metadata) (key : String) (value : Option String) :
    presentFields (data.titleFields ++ [(key, value)]) =
      data.shownFields titleKeys ++ (value.map (key, ·)).toList := by
  have htitle : data.shown? ["workTitle", "movementTitle"] = data.title? := by
    rw [shown?_eq_findSome?, title?]
    cases h : data.tag? "workTitle" <;> cases h' : data.tag? "movementTitle" <;> simp [h, h']
  unfold presentFields shownFields titleKeys titleFields
  rw [List.filterMap_append]
  simp only [List.filterMap_cons, List.filterMap_nil, htitle, shown?_singleton, subtitle?,
    composer?, lyricist?, arranger?]
  cases value <;> rfl

end Metadata

/-! ## Books -/

/-- The text is a book with these staves in its score, and with this suffix if it has one. It may
have a paper size, a header and a staff size besides, and nothing else. -/
def Source.IsBook (text : String) (suffix? : Option String) (staves : String) : Prop :=
  ∃ paperSize fields staffSize, HasOutline text
    ([.block ["book"]] ++ Frame.paperItems paperSize ++
      (suffix?.map (.insertion ["book"] true)).toList ++
      (if fields = [] then [] else Frame.headerItems fields) ++
      [.block ["book", "score"], .insertion ["book", "score"] false staves] ++
      Frame.layoutItems staffSize)

/-- The fields of a header are read under their names. -/
theorem isKey_header (data : Metadata) {key : String} (hkey : Frame.IsKey key)
    (value : Option String) :
    ∀ field ∈ presentFields (data.titleFields ++ [(key, value)]), Frame.IsKey field.1 :=
  forall_key_of_mem_header data (by decide) hkey value

section

variable (data : Metadata) (settings : Settings)

theorem PartBook.hasOutline_text (book : PartBook) :
    HasOutline (book.text data settings)
      ([.block ["book"]] ++ Frame.paperItems settings.partsPaperSize ++
        [.insertion ["book"] true book.outputSuffix] ++
        Frame.headerItems (data.shownFields titleKeys ++ [("instrument", book.instrument)]) ++
        [.block ["book", "score"],
          .insertion ["book", "score"] false (Text.indent 4 book.staff)] ++
        Frame.layoutItems settings.partsStaffSize) := by
  have houtline := (book.frame data settings).hasOutline_partText
    (isKey_header data (by decide) _) book.outputSuffix
  have hheader : (book.frame data settings).header =
      data.shownFields titleKeys ++ [("instrument", book.instrument)] :=
    data.presentFields_eq "instrument" (some book.instrument)
  rw [hheader] at houtline
  exact houtline

theorem hasOutline_scoreBook (blocks : List String) : ∃ fields,
    fields = data.shownFields (titleKeys ++ [("copyright", ["copyright"])]) ∧
      HasOutline (scoreBook blocks data settings)
        ([.block ["book"]] ++ Frame.paperItems settings.scorePaperSize ++
          (if fields = [] then [] else Frame.headerItems fields) ++
          [.block ["book", "score"],
            .insertion ["book", "score"] false (Text.indent 6 (Text.joinLines blocks))] ++
          Frame.layoutItems settings.scoreStaffSize) := by
  have houtline := (scoreFrame blocks data settings).hasOutline_scoreText
    (isKey_header data (by decide) _)
  have hheader : (scoreFrame blocks data settings).header =
      data.shownFields (titleKeys ++ [("copyright", ["copyright"])]) := by
    rw [Metadata.shownFields_concat]
    exact data.presentFields_eq "copyright" data.copyright?
  rw [hheader] at houtline
  exact ⟨_, rfl, houtline⟩

/-- **The book of a part holds its staves.** -/
theorem PartBook.isBook_text (book : PartBook) :
    IsBook (book.text data settings) (some book.outputSuffix) (Text.indent 4 book.staff) := by
  have hfields : data.shownFields titleKeys ++ [("instrument", book.instrument)] ≠ [] :=
    List.concat_ne_nil _ _
  refine ⟨settings.partsPaperSize, data.shownFields titleKeys ++ [("instrument", book.instrument)],
    settings.partsStaffSize, ?_⟩
  rw [if_neg hfields]
  exact book.hasOutline_text data settings

/-- **The book of the score holds the blocks**, one under the other. -/
theorem isBook_scoreBook (blocks : List String) :
    IsBook (scoreBook blocks data settings) none (Text.indent 6 (Text.joinLines blocks)) := by
  obtain ⟨fields, -, houtline⟩ := hasOutline_scoreBook data settings blocks
  refine ⟨settings.scorePaperSize, fields, settings.scoreStaffSize, ?_⟩
  rw [Option.map_none, Option.toList_none, List.append_nil]
  exact houtline

end

/-- **A book tells what the settings and the metadata say, and all of it once.** -/
theorem books_tell_settings_and_metadata (data : Metadata) (settings : Settings) :
    (∀ book : PartBook, HasOutline (book.text data settings)
      ([.block ["book"]] ++ Frame.paperItems settings.partsPaperSize ++
        [.insertion ["book"] true book.outputSuffix] ++
        Frame.headerItems (data.shownFields titleKeys ++ [("instrument", book.instrument)]) ++
        [.block ["book", "score"],
          .insertion ["book", "score"] false (Text.indent 4 book.staff)] ++
        Frame.layoutItems settings.partsStaffSize)) ∧
    (∀ blocks : List String, ∃ fields,
      fields = data.shownFields (titleKeys ++ [("copyright", ["copyright"])]) ∧
      HasOutline (scoreBook blocks data settings)
        ([.block ["book"]] ++ Frame.paperItems settings.scorePaperSize ++
          (if fields = [] then [] else Frame.headerItems fields) ++
          [.block ["book", "score"],
            .insertion ["book", "score"] false (Text.indent 6 (Text.joinLines blocks))] ++
          Frame.layoutItems settings.scoreStaffSize)) ∧
    (∀ tags value, data.shown? tags = some value ↔ data.Shows tags value) ∧
    ∀ (part : Part) (music : List (List String)) (names names' : Names) (engraved : EngravedPart),
      part.name music names = (some engraved, names') →
        engraved.book.instrument = part.trackName := by
  refine ⟨fun book => book.hasOutline_text data settings, hasOutline_scoreBook data settings,
    fun _ _ => Metadata.shown?_eq_some_iff, ?_⟩
  intro part music names names' engraved h
  unfold Part.name at h
  dsimp only at h
  split at h <;> cases h
  rfl

end Scorebook
