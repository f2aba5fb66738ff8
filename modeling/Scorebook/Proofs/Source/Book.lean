import Scorebook.Proofs.Source.Music

/-!
# Pieces of books

Staves and books are made of fixed text, of what is quoted, of numbers, and of references to macros.
So every book is one group in braces (`PartBook.runs_text`, `runs_scoreBook`), and besides
LilyPond's commands it names only the macros of its staves. The paper size is the one setting that
is put between quotes as it is, so it must have neither quotes nor backslashes.
-/

namespace Scorebook

open Source

/-! ## Staves -/

theorem Source.piece_macro {id : String} (hid : Identifier.IsWord id) (a : Nat) :
    Piece [id] a ("\\" ++ id) a := by
  have hopen : scan .plain "\\".toList = ([], .command []) := by decide
  have hword : scan (.command []) id.toList = ([], .command id.toList) :=
    scan_letters (List.all_eq_true.1 hid.2)
  have hscan := scan_append (scan_append hopen hword) (scan_singleton _ '\n')
  rw [← String.toList_append] at hscan
  refine .of_scan_eq (hscan : _ = ([] ++ _, _)) rfl rfl ?_
  simp [begin, Token.Known]

theorem Pitch.settled_text (pitch : Pitch) : Settled [] 1 pitch.text 1 :=
  settled_of_ordinary
    (fun _ hc => isOrdinary_of_kind (isNotePart_of_mem_text hc) (by decide)) 1

namespace EngravedStaff

variable {staff : EngravedStaff}

theorem piece_reference (hid : Identifier.IsWord staff.id) :
    Piece [staff.id] 1 staff.reference 1 := by
  have hmacro := piece_macro hid 1
  unfold reference
  cases staff.transposition with
  | none => exact hmacro
  | some pitch =>
    have hcommand : Settled [] 1 "\\transpose " 1 := by decide
    have hto : Settled [] 1 " c' " 1 := by decide
    have hsplit : " c' \\" = " c' " ++ "\\" := by decide
    have happend :=
      ((hcommand.append pitch.settled_text).append hto).of_nil.append_piece hmacro
    dsimp only
    rw [hsplit]
    simpa only [String.append_assoc] using happend

theorem settled_contents {margin : String} (hid : Identifier.IsWord staff.id)
    (hmargin : Settled [] 1 margin 1) : Settled [staff.id] 1 (staff.contents margin) 1 := by
  have hbreak : Separator 1 "\n" ⟨1, 0⟩ := by decide
  have hclef := ((hmargin.append (settled_clefDirective staff.clef)).append
    hbreak.runs).append hmargin
  exact (hclef.of_nil.append_piece (piece_reference hid)).settle hbreak

/-- A staff in braces of its own. -/
theorem settled_block {opening margin closing : String} (hid : Identifier.IsWord staff.id)
    (hopening : Settled [] 1 opening 2) (hmargin : Settled [] 1 margin 1)
    (hclosing : Separator 2 closing ⟨1, 0⟩) :
    Settled [staff.id] 1 (opening ++ staff.contents margin ++ closing) 1 := by
  have hcontents := (settled_contents hid hmargin).piece.deeper 1
  exact (hopening.of_nil.append_piece hcontents).settle hclosing

theorem settled_innerBlock (hid : Identifier.IsWord staff.id) :
    Settled [staff.id] 1 staff.innerBlock 1 :=
  settled_block hid (by decide) (by decide) (by decide)

theorem settled_bareBlock (hid : Identifier.IsWord staff.id) :
    Settled [staff.id] 1 staff.bareBlock 1 :=
  settled_block hid (by decide) (by decide) (by decide)

end EngravedStaff

/-! ## Parts -/

namespace EngravedPart

variable {part : EngravedPart}

theorem settled_nameLines (part : EngravedPart) (context : String) {a : Nat}
    (h : Settled [] a ("  \\set " ++ context ++ ".instrumentName = ") a ∧
      Settled [] a ("\n  \\set " ++ context ++ ".shortInstrumentName = ") a ∧
      Settled [] a "\n" a) : Settled [] a (part.nameLines context) a := by
  have happend := (((h.1.append (settled_quote part.longName a)).append h.2.1).append
    (settled_quote part.shortName a)).append h.2.2
  unfold nameLines
  simpa only [String.append_assoc] using happend

theorem settled_pianoBlock (h : ∀ id ∈ part.ids, Identifier.IsWord id) :
    Settled part.ids 1 part.pianoBlock 1 := by
  have hopen : Settled [] 1 "\\new PianoStaff <<\n" 1 := by decide
  have hnames := hopen.append (part.settled_nameLines "PianoStaff" (by decide))
  have hstaves : Piece part.ids 1
      (Text.joinLines (part.staves.map EngravedStaff.innerBlock)) 1 := by
    refine .joinLines (by decide) fun s hs => ?_
    obtain ⟨staff, hstaff, rfl⟩ := List.mem_map.1 hs
    have hid : staff.id ∈ part.ids := List.mem_map_of_mem hstaff
    exact ((EngravedStaff.settled_innerBlock (h _ hid)).mono (by simpa using hid)).piece
  exact (hnames.of_nil.append_piece hstaves).settle (by decide)

/-- **What stands for a part in the score**, under whatever names. -/
theorem settled_scoreBlock (h : ∀ id ∈ part.ids, Identifier.IsWord id) :
    Settled part.ids 1 part.scoreBlock 1 := by
  unfold scoreBlock
  split_ifs with hothers
  · have hids := ids_of_others_eq_nil hothers
    rw [hids] at h ⊢
    have hopen : Settled [] 1 "\\new Staff \x7b\n" 2 := by decide
    have hnames := hopen.append (part.settled_nameLines "Staff" (by decide))
    exact EngravedStaff.settled_block (h _ List.mem_cons_self) hnames (by decide) (by decide)
  · exact settled_pianoBlock h

theorem settled_bookBlock (h : ∀ id ∈ part.ids, Identifier.IsWord id) :
    Settled part.ids 1 part.bookBlock 1 := by
  unfold bookBlock
  split_ifs with hothers
  · have hids := ids_of_others_eq_nil hothers
    rw [hids] at h ⊢
    exact EngravedStaff.settled_bareBlock (h _ List.mem_cons_self)
  · exact settled_pianoBlock h

end EngravedPart

theorem Assembly.piece_groupBlock (group : Group) {parts : List EngravedPart}
    (h : ∀ id ∈ macroIds parts, Identifier.IsWord id) :
    Piece (macroIds parts) 1 (groupBlock group parts) 1 := by
  have hblocks : Piece (macroIds parts) 1
      (Text.joinLines (parts.map EngravedPart.scoreBlock)) 1 := by
    refine .joinLines (by decide) fun s hs => ?_
    obtain ⟨part, hpart, rfl⟩ := List.mem_map.1 hs
    have hsubset : part.ids ⊆ macroIds parts := fun id hid => List.mem_flatMap_of_mem hpart hid
    exact ((EngravedPart.settled_scoreBlock fun id hid => h id (hsubset hid)).mono hsubset).piece
  unfold groupBlock
  cases group with
  | single _ => exact hblocks
  | bracketed _ barLineSpan _ =>
    have hopen : Settled []
        1 ("\\new " ++ (if barLineSpan then "StaffGroup" else "ChoirStaff") ++ " <<\n") 1 := by
      cases barLineSpan <;> decide
    exact ((hopen.of_nil.append_piece (hblocks.indent 2)).settle (by decide)).piece

/-! ## Frames -/

theorem Decimal.ordinary_plainText (d : Decimal) : Ordinary d.plainText := by
  have hdigit := ordinary_toString d.coefficient
  unfold plainText
  split_ifs
  · exact ordinary_toString _
  · intro c hc
    rw [String.toList_ofList, pointed] at hc
    unfold Ordinary at hdigit
    generalize (toString d.coefficient).toList = digits at hc hdigit
    have hpadded (n : Nat) : ∀ c ∈ List.replicate n '0' ++ digits, isOrdinary c = true := by
      intro c hc
      rcases List.mem_append.1 hc with hc | hc
      · rw [List.eq_of_mem_replicate hc]
        decide
      · exact hdigit c hc
    rcases List.mem_append.1 hc with hc | hc
    · exact hpadded _ c (List.mem_of_mem_take hc)
    · rcases List.mem_cons.1 hc with rfl | hc
      · decide
      · exact hpadded _ c (List.mem_of_mem_drop hc)

theorem ordinary_staffSizeText (size : Float) : Ordinary (staffSizeText size) := by
  have hmagnitude (x : Binary64) : Ordinary
      (if size.isInf then "inf" else if x.isWhole then toString x.value.num
        else x.shortest.plainText) := by
    split_ifs
    · decide
    · exact ordinary_toString_int _
    · exact Decimal.ordinary_plainText _
  have hmagnitude := hmagnitude (Binary64.ofFloat size)
  unfold staffSizeText
  dsimp only
  generalize (if size.isInf then "inf" else _) = magnitude at hmagnitude ⊢
  split_ifs
  · decide
  · exact Ordinary.append (s := "-") (by decide) hmagnitude
  · exact hmagnitude

/-- The text may stand between quotes as it is. -/
def Source.Quotable (s : String) : Prop :=
  ∀ c ∈ s.toList, c ≠ '"' ∧ c ≠ '\\'

instance (s : String) : Decidable (Quotable s) :=
  decidable_of_iff (s.toList.all (fun c => c ≠ '"' ∧ c ≠ '\\') = true) (by simp [Quotable])

theorem Source.settled_quotable {s first last : String} {a b c : Nat} (hs : Quotable s)
    (hfirst : Settled [] a first b) (hlast : Settled [] b last c) :
    Settled [] a (first ++ "\"" ++ s ++ "\"" ++ last) c := by
  have hchar : ∀ c ∈ s.toList, Text.escapeChar c = [c] := by
    intro c hc
    rw [Text.escapeChar, if_neg (not_or.2 (hs c hc))]
  have hquote : Text.quote s = "\"" ++ s ++ "\"" := by
    rw [Text.quote, Text.escape, List.flatMap_congr hchar, List.flatMap_singleton',
      String.ofList_toList]
  have happend := (hfirst.append (settled_quote s b)).append hlast
  rw [hquote] at happend
  simpa only [String.append_assoc] using happend

theorem Identifier.IsWord.quotable {id : String} (h : IsWord id) : Quotable id := by
  intro c hc
  have halpha := List.all_eq_true.1 h.2 c hc
  constructor <;> rintro rfl <;> cases halpha

namespace Frame

variable {f : Frame} {ids : List String}

/-- What the settings and the header put into a frame can be read. -/
structure Sound (f : Frame) : Prop where
  paperSize : ∀ size ∈ f.paperSize, Quotable size
  header : ∀ field ∈ f.header, Ordinary field.1

theorem Sound.settled_paperBlock (h : f.Sound) : Settled [] 1 f.paperBlock 1 := by
  unfold paperBlock
  split
  · decide
  · next size hsize =>
    have happend := settled_quotable (h.paperSize size hsize)
      (by decide : Settled [] 1 "  \\paper \x7b\n    #(set-paper-size " 2)
      (by decide : Settled [] 2 ")\n  \x7d\n" 1)
    have hfirst : "  \\paper \x7b\n    #(set-paper-size \"" =
      "  \\paper \x7b\n    #(set-paper-size " ++ "\"" := by decide
    have hlast : "\")\n  \x7d\n" = "\"" ++ ")\n  \x7d\n" := by decide
    rw [hfirst, hlast]
    simpa only [String.append_assoc] using happend

theorem Sound.settled_headerBlock (h : f.Sound) : Settled [] 1 f.headerBlock 1 := by
  have hopen : Settled [] 1 "  \\header \x7b\n" 2 := by decide
  have hclose : Settled [] 2 "  \x7d\n" 1 := by decide
  have hlines : Settled [] 2 (String.join (f.header.map headerLine)) 2 := by
    refine .join fun line hline => ?_
    obtain ⟨field, hfield, rfl⟩ := List.mem_map.1 hline
    have hmargin : Settled [] 2 "    " 2 := by decide
    have hequals : Settled [] 2 " = " 2 := by decide
    have hbreak : Settled [] 2 "\n" 2 := by decide
    have hname := settled_of_ordinary (h.header field hfield) 2
    exact (((hmargin.append hname).append hequals).append (settled_quote field.2 2)).append hbreak
  exact (hopen.append hlines).append hclose

theorem settled_layoutBlock (f : Frame) : Settled [] 2 f.layoutBlock 2 := by
  unfold layoutBlock
  split
  · decide
  · next size _ =>
    have hopen : Settled [] 2 "    \\layout \x7b\n      #(layout-set-staff-size " 3 := by
      decide
    have hclose : Settled [] 3 ")\n    \x7d\n" 2 := by decide
    exact (hopen.append (settled_of_ordinary (ordinary_staffSizeText size) 3)).append hclose

/-- From its staves on every book is alike. -/
theorem runs_bookEnd (f : Frame) {front behind : String} (hfront : Settled [] 0 front 2)
    (hstaves : Piece ids 1 f.staves 1) (hbehind : Separator 2 behind ⟨2, 0⟩) :
    Runs ids ⟨0, 0⟩
      (front ++ f.staves ++ behind ++ f.layoutBlock ++ "  \x7d\n\x7d\n").toList ⟨0, 1⟩ := by
  have hscore := (hfront.of_nil.append_piece (hstaves.deeper 1)).settle hbehind
  exact (hscore.append f.settled_layoutBlock.of_nil).piece.close (by decide)

/-- **The book of a part is one group.** -/
theorem Sound.runs_partText (h : f.Sound) {outputSuffix : String} (hsuffix : Quotable outputSuffix)
    (hstaves : Piece ids 1 f.staves 1) :
    Runs ids ⟨0, 0⟩ (f.partText outputSuffix).toList ⟨0, 1⟩ := by
  have hopen : Settled [] 0 "\\book \x7b\n" 1 := by decide
  have hline := settled_quotable hsuffix
    (by decide : Settled [] 1 "  \\bookOutputSuffix " 1) (by decide : Settled [] 1 "\n" 1)
  have hscore : Settled [] 1 "  \\score \x7b\n" 2 := by decide
  have hfront := (((hopen.append h.settled_paperBlock).append hline).append
    h.settled_headerBlock).append hscore
  have hbook := f.runs_bookEnd hfront hstaves (by decide : Separator 2 "\n" ⟨2, 0⟩)
  have hfirst : "  \\bookOutputSuffix \"" = "  \\bookOutputSuffix " ++ "\"" := by decide
  have hlast : "\"\n" = "\"" ++ "\n" := by decide
  unfold partText
  rw [hfirst, hlast]
  simpa only [String.append_assoc] using hbook

/-- **The book of the score is one group.** -/
theorem Sound.runs_scoreText (h : f.Sound) (hstaves : Piece ids 1 f.staves 1) :
    Runs ids ⟨0, 0⟩ f.scoreText.toList ⟨0, 1⟩ := by
  have hopen : Settled [] 0 "\\book \x7b\n" 1 := by decide
  have hheader : Settled [] 1 (if f.header = [] then "" else "\n" ++ f.headerBlock) 1 := by
    split_ifs
    · decide
    · have hbreak : Settled [] 1 "\n" 1 := by decide
      exact hbreak.append h.settled_headerBlock
  have hscore : Settled [] 1 "  \\score \x7b\n    <<\n" 2 := by decide
  exact f.runs_bookEnd (((hopen.append h.settled_paperBlock).append hheader).append hscore) hstaves
    (by decide)

end Frame

/-! ## Books -/

/-- What holds of the keys that books have in common, and of the last one, holds of every key in a
header. -/
theorem forall_key_of_mem_header (data : Metadata) {P : String → Prop}
    (h : ∀ key ∈ ["title", "subtitle", "composer", "lyricist", "arranger"], P key) {key : String}
    (hkey : P key) (value : Option String) :
    ∀ field ∈ presentFields (data.titleFields ++ [(key, value)]), P field.1 := by
  have hall : ∀ field ∈ data.titleFields ++ [(key, value)], P field.1 := by
    simp only [List.forall_mem_cons] at h
    obtain ⟨htitle, hsubtitle, hcomposer, hlyricist, harranger, -⟩ := h
    simp only [Metadata.titleFields, List.forall_mem_append, List.forall_mem_cons]
    exact ⟨⟨htitle, hsubtitle, hcomposer, hlyricist, harranger, by simp⟩, hkey, by simp⟩
  intro field hfield
  obtain ⟨⟨key, value⟩, hmem, hvalue⟩ := List.mem_filterMap.1 hfield
  obtain ⟨shown, -, rfl⟩ := Option.map_eq_some_iff.1 hvalue
  exact hall _ hmem

/-- The fields of a header are named by ordinary words. -/
theorem ordinary_header (data : Metadata) {key : String} (hkey : Ordinary key)
    (value : Option String) :
    ∀ field ∈ presentFields (data.titleFields ++ [(key, value)]), Ordinary field.1 :=
  forall_key_of_mem_header data (by decide) hkey value

variable {data : Metadata} {settings : Settings}

theorem PartBook.runs_text {book : PartBook} {ids : List String}
    (hpaper : ∀ size ∈ settings.partsPaperSize, Quotable size)
    (hsuffix : Identifier.IsWord book.outputSuffix) (hstaff : Piece ids 1 book.staff 1) :
    Runs ids ⟨0, 0⟩ (book.text data settings).toList ⟨0, 1⟩ := by
  have hsound : (book.frame data settings).Sound :=
    ⟨hpaper, ordinary_header data (by decide) _⟩
  exact hsound.runs_partText hsuffix.quotable (hstaff.indent 4)

theorem runs_scoreBook {blocks : List String} {ids : List String}
    (hpaper : ∀ size ∈ settings.scorePaperSize, Quotable size)
    (hblocks : ∀ block ∈ blocks, Piece ids 1 block 1) :
    Runs ids ⟨0, 0⟩ (scoreBook blocks data settings).toList ⟨0, 1⟩ := by
  have hsound : (scoreFrame blocks data settings).Sound :=
    ⟨hpaper, ordinary_header data (by decide) _⟩
  exact hsound.runs_scoreText ((Piece.joinLines (by decide) hblocks).indent 6)

end Scorebook
