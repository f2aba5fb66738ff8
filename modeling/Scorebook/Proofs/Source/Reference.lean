import Scorebook.Book.Assembly
import Scorebook.Proofs.Identifiers
import Scorebook.Proofs.Source.Token

/-!
# References to macros

In laid out staves a command right in front of a closing brace is a reference: it is the music of
the staff that the brace closes. What a piece of source is read as can be put together from its
parts, as long as no part ends in the middle of a token or with a command (`Reads`). So every staff
refers to its own macro and to no other, whether it stands in the score or in the book of its part,
and whatever its part is called (`refers_scoreBlock`, `refers_bookBlock`). In the score the blocks
of the parts stand one behind the other, with the brackets of their groups around them
(`tokens_scoreFrame`).
-/

namespace Scorebook

namespace Source

/-! ## Reading references -/

def Token.command? : Token → Option String
  | .command name => some name
  | _ => none

/-- For each closing brace the command right in front of it, if there is one. The command in front
of the first token is told. -/
def referencesFrom : Option String → List Token → List (Option String)
  | _, [] => []
  | last?, t :: ts => (if t = .mark '\x7d' then [last?] else []) ++ referencesFrom t.command? ts

/-- The command right behind the tokens, if the last of them is one. -/
def lastCommand? (last? : Option String) (ts : List Token) : Option String :=
  ts.foldl (fun _ t => t.command?) last?

/-- The tokens of a piece of source. -/
def tokens (s : String) : List Token :=
  (scan .plain s.toList).1

/-- What the blocks of a piece of source refer to, in the order in which they are closed; a block
without a command at its end refers to nothing. -/
def references (s : String) : List (Option String) :=
  referencesFrom none (tokens s)

/-- The text is read as these whole tokens, of which the last is not a command. -/
structure Reads (s : String) (ts : List Token) : Prop where
  scan_eq : scan .plain s.toList = (ts, .plain)
  settled : lastCommand? none ts = none

instance (s : String) (ts : List Token) : Decidable (Reads s ts) :=
  decidable_of_iff (scan .plain s.toList = (ts, .plain) ∧ lastCommand? none ts = none)
    ⟨fun h => ⟨h.1, h.2⟩, fun h => ⟨h.1, h.2⟩⟩

/-- The text is read as whole tokens, and its blocks refer to these macros, each to one. -/
structure Refers (s : String) (ids : List String) : Prop where
  reads : Reads s (tokens s)
  references_eq : references s = ids.map some

instance (s : String) (ids : List String) : Decidable (Refers s ids) :=
  decidable_of_iff (Reads s (tokens s) ∧ references s = ids.map some)
    ⟨fun h => ⟨h.1, h.2⟩, fun h => ⟨h.1, h.2⟩⟩

/-- The tokens behind others are read from the command that these end with. -/
theorem referencesFrom_append (last? : Option String) (ts us : List Token) :
    referencesFrom last? (ts ++ us) =
      referencesFrom last? ts ++ referencesFrom (lastCommand? last? ts) us := by
  induction ts generalizing last? with
  | nil => rfl
  | cons t ts ih =>
    rw [List.cons_append, referencesFrom, ih, referencesFrom, List.append_assoc]
    rfl

namespace Reads

variable {s t : String} {ts us : List Token}

theorem tokens_eq (h : Reads s ts) : tokens s = ts := by
  rw [tokens, h.scan_eq]

theorem append (hs : Reads s ts) (ht : Reads t us) : Reads (s ++ t) (ts ++ us) := by
  constructor
  · rw [String.toList_append]
    exact scan_append hs.scan_eq ht.scan_eq
  · have hsettled := hs.settled
    unfold lastCommand? at hsettled ⊢
    rw [List.foldl_append, hsettled]
    exact ht.settled

/-- What a text refers to is told by its tokens. -/
theorem refers {ids : List String} (h : Reads s ts)
    (hids : referencesFrom none ts = ids.map some) : Refers s ids := by
  constructor
  · rwa [h.tokens_eq]
  · rwa [references, h.tokens_eq]

end Reads

theorem Refers.append {s t : String} {ids ids' : List String} (hs : Refers s ids)
    (ht : Refers t ids') : Refers (s ++ t) (ids ++ ids') := by
  refine (hs.reads.append ht.reads).refers ?_
  rw [referencesFrom_append, hs.reads.settled, List.map_append]
  exact congrArg₂ (· ++ ·) hs.references_eq ht.references_eq

theorem refers_empty : Refers "" [] := by decide

theorem reads_quote (s : String) : Reads (Text.quote s) [.literal] :=
  ⟨scan_quote s, rfl⟩

theorem refers_quote (s : String) : Refers (Text.quote s) [] :=
  (reads_quote s).refers rfl

/-! ## Lines -/

theorem reads_joinLines {lines : List String} {ts : List (List Token)}
    (h : List.Forall₂ Reads lines ts) : Reads (Text.joinLines lines) ts.flatten :=
  joinLines_of_append (by decide) (by decide) Reads.append h

theorem refers_joinLines {lines : List String} {ids : List (List String)}
    (h : List.Forall₂ Refers lines ids) : Refers (Text.joinLines lines) ids.flatten :=
  joinLines_of_append refers_empty (by decide) Refers.append h

/-- A line end completes a command, and nothing else. -/
theorem scan_concat_newline {cs : List Char} {ts : List Token} (h : lastCommand? none ts = none) :
    scan .plain (cs ++ ['\n']) = (ts, .plain) ↔ scan .plain cs = (ts, .plain) := by
  constructor
  · intro hscan
    cases hcs : scan .plain cs with
    | mk us m =>
      have happend := scan_append hcs (scan_singleton m '\n')
      rw [happend] at hscan
      cases m with
      | plain => simpa [step, begin] using hscan
      | command letters =>
        have hts : ts = us ++ [.command (String.ofList letters)] := by
          simpa [step, begin, eq_comm] using hscan
        simp [hts, lastCommand?, Token.command?] at h
      | literal => cases hscan
      | escaped => cases hscan
  · intro hscan
    have happend := scan_append hscan (scan_singleton .plain '\n')
    simpa [step, begin] using happend

theorem Reads.indent {s : String} {ts : List Token} (h : Reads s ts) (width : Nat) :
    Reads (Text.indent width s) ts := by
  refine ⟨?_, h.settled⟩
  rw [← scan_concat_newline h.settled, scan_indent (.inl rfl), scan_concat_newline h.settled]
  exact h.scan_eq

theorem Refers.indent {s : String} {ids : List String} (h : Refers s ids) (width : Nat) :
    Refers (Text.indent width s) ids :=
  (h.reads.indent width).refers h.references_eq

/-! ## Names of macros -/

/-- A macro in front of a closing brace. -/
theorem refers_macro {id closing : String} (hid : Identifier.IsWord id)
    (hclosing : scan .plain closing.toList = ([.mark '\x7d'], .plain)) :
    Refers ("\\" ++ id ++ "\n" ++ closing) [id] := by
  have hopen : scan .plain "\\".toList = ([], .command []) := by decide
  have hword : scan (.command []) id.toList = ([], .command id.toList) :=
    scan_letters (List.all_eq_true.1 hid.2)
  have hend : scan (.command id.toList) "\n".toList =
      ([.command (String.ofList id.toList)], .plain) := scan_singleton _ _
  have hscan := scan_append (scan_append (scan_append hopen hword) hend) hclosing
  simp only [← String.toList_append, List.nil_append, String.ofList_toList] at hscan
  have hreads : Reads ("\\" ++ id ++ "\n" ++ closing) [.command id, .mark '\x7d'] :=
    ⟨hscan, rfl⟩
  exact hreads.refers rfl

end Source

open Source

/-! ## What staves are made of -/

theorem refers_clefDirective (clef : String) : Refers (clefDirective clef) [] := by
  unfold clefDirective clefName
  split <;> decide

theorem refers_octaveMarks (octave : Int) : Refers (octaveMarks octave) [] := by
  have hmarks : ∀ n ≤ maxOctaveMarks, Refers (String.join (List.replicate n "'")) [] ∧
      Refers (String.join (List.replicate n ",")) [] := by decide
  unfold octaveMarks
  split_ifs
  · exact (hmarks _ (Nat.min_le_right _ _)).1
  · exact (hmarks _ (Nat.min_le_right _ _)).2

theorem refers_transpose (pitch : Pitch) : Refers ("\\transpose " ++ pitch.text) [] := by
  have hname : ∀ name : NoteName, Refers ("\\transpose " ++ name.text) [] := by
    rintro ⟨step, alteration⟩
    cases step <;> cases alteration <;> decide
  rw [Pitch.text, ← String.append_assoc]
  exact (hname pitch.name).append (refers_octaveMarks pitch.octave)

namespace EngravedStaff

variable {staff : EngravedStaff} {closing : String}

/-- The reference of a staff in front of its closing brace. -/
theorem refers_reference (hid : Identifier.IsWord staff.id)
    (hclosing : scan .plain closing.toList = ([.mark '\x7d'], .plain)) :
    Refers (staff.reference ++ "\n" ++ closing) [staff.id] := by
  have hmacro := refers_macro hid hclosing
  unfold reference
  cases staff.transposition with
  | none => exact hmacro
  | some pitch =>
    have hto : Refers " c' " [] := by decide
    have hsplit : " c' \\" = " c' " ++ "\\" := by decide
    have happend := ((refers_transpose pitch).append hto).append hmacro
    rw [hsplit]
    simpa only [String.append_assoc, List.nil_append] using happend

theorem refers_contents (margin : String) (hid : Identifier.IsWord staff.id)
    (hmargin : Refers margin [])
    (hclosing : scan .plain closing.toList = ([.mark '\x7d'], .plain)) :
    Refers (staff.contents margin ++ closing) [staff.id] := by
  have hbreak : Refers "\n" [] := by decide
  have happend := (((hmargin.append (refers_clefDirective staff.clef)).append hbreak).append
    hmargin).append (refers_reference hid hclosing)
  unfold contents
  simpa only [String.append_assoc, List.nil_append] using happend

theorem refers_innerBlock (hid : Identifier.IsWord staff.id) :
    Refers staff.innerBlock [staff.id] := by
  have hopen : Refers "  \\new Staff \x7b\n" [] := by decide
  have hcontents : Refers (staff.contents "    " ++ "  \x7d") [staff.id] :=
    refers_contents "    " hid (by decide) (by decide)
  have happend := hopen.append hcontents
  unfold innerBlock
  simpa only [String.append_assoc, List.nil_append] using happend

theorem refers_bareBlock (hid : Identifier.IsWord staff.id) :
    Refers staff.bareBlock [staff.id] := by
  have hopen : Refers "\\new Staff \x7b\n" [] := by decide
  have hcontents : Refers (staff.contents "  " ++ "\x7d") [staff.id] :=
    refers_contents "  " hid (by decide) (by decide)
  have happend := hopen.append hcontents
  unfold bareBlock
  simpa only [String.append_assoc, List.nil_append] using happend

example : references "\\new Staff \x7b\n  \\clef bass\n  \\transpose bes c' \\horn\n\x7d" =
    [some "horn"] := by
  decide

end EngravedStaff

/-! ## Parts -/

namespace EngravedPart

variable {part : EngravedPart}

/-- The names of the macros of a part. -/
def ids (part : EngravedPart) : List String :=
  part.staves.map EngravedStaff.id

theorem refers_nameLines (part : EngravedPart) (context : String)
    (h : Refers ("  \\set " ++ context ++ ".instrumentName = ") [] ∧
      Refers ("\n  \\set " ++ context ++ ".shortInstrumentName = ") []) :
    Refers (part.nameLines context) [] := by
  have hbreak : Refers "\n" [] := by decide
  have happend := (((h.1.append (refers_quote part.longName)).append h.2).append
    (refers_quote part.shortName)).append hbreak
  unfold nameLines
  simpa only [String.append_assoc, List.nil_append] using happend

theorem refers_pianoBlock (h : ∀ id ∈ part.ids, Identifier.IsWord id) :
    Refers part.pianoBlock part.ids := by
  have hopen : Refers "\\new PianoStaff <<\n" [] := by decide
  have hclose : Refers "\n>>" [] := by decide
  have hstaves : List.Forall₂ Refers (part.staves.map EngravedStaff.innerBlock)
      (part.staves.map fun staff => [staff.id]) := by
    rw [forall₂_map_map_iff]
    intro staff hstaff
    exact EngravedStaff.refers_innerBlock (h staff.id (List.mem_map_of_mem hstaff))
  have hflatten : (part.staves.map fun staff => [staff.id]).flatten = part.ids := by
    rw [← List.flatMap_def, ← List.map_eq_flatMap, ids]
  have happend := ((hopen.append (part.refers_nameLines "PianoStaff" (by decide))).append
    (refers_joinLines hstaves)).append hclose
  rw [hflatten] at happend
  unfold pianoBlock
  simpa only [String.append_assoc, List.nil_append, List.append_nil] using happend

theorem ids_of_others_eq_nil (h : part.others = []) : part.ids = [part.first.id] := by
  rw [ids, staves, h]
  rfl

/-- **What stands for a part in the score refers to its macros**, staff by staff. -/
theorem refers_scoreBlock (h : ∀ id ∈ part.ids, Identifier.IsWord id) :
    Refers part.scoreBlock part.ids := by
  unfold scoreBlock
  split_ifs with hothers
  · have hids := ids_of_others_eq_nil hothers
    have hopen : Refers "\\new Staff \x7b\n" [] := by decide
    have hnames := part.refers_nameLines "Staff" (by decide)
    have hmargin : Refers "  " [] := by decide
    rw [hids] at h ⊢
    have hcontents : Refers (part.first.contents "  " ++ "\x7d") [part.first.id] :=
      EngravedStaff.refers_contents "  " (h _ (List.mem_singleton_self _)) hmargin (by decide)
    have happend := (hopen.append hnames).append hcontents
    simpa only [String.append_assoc, List.nil_append] using happend
  · exact refers_pianoBlock h

/-- **What stands in the book of a part refers to its macros**, staff by staff. -/
theorem refers_bookBlock (h : ∀ id ∈ part.ids, Identifier.IsWord id) :
    Refers part.bookBlock part.ids := by
  unfold bookBlock
  split_ifs with hothers
  · have hids := ids_of_others_eq_nil hothers
    rw [hids] at h ⊢
    exact EngravedStaff.refers_bareBlock (h _ (List.mem_singleton_self _))
  · exact refers_pianoBlock h

end EngravedPart

/-! ## The score -/

/-- The names of the macros of parts, in their order. -/
def macroIds (parts : List EngravedPart) : List String :=
  parts.flatMap EngravedPart.ids

theorem macroIds_subset_flatten {row : List EngravedPart} {rows : List (List EngravedPart)}
    (h : row ∈ rows) : macroIds row ⊆ macroIds rows.flatten := by
  intro id hid
  obtain ⟨part, hpart, hid⟩ := List.mem_flatMap.1 hid
  exact List.mem_flatMap.2 ⟨part, List.mem_flatten.2 ⟨row, h, hpart⟩, hid⟩

/-- The tokens of the parts of a group, in a bracket if the group is one. -/
def Group.enclose : Group → List Token → List Token
  | .single _, ts => ts
  | .bracketed _ barLineSpan _, ts =>
    tokens ("\\new " ++ (if barLineSpan then "StaffGroup" else "ChoirStaff") ++ " <<") ++ ts ++
      tokens ">>"

/-- The tokens of a group whose parts are engraved: one block for each of them. -/
def Group.blockTokens (group : Group) (parts : List EngravedPart) : List Token :=
  group.enclose (parts.flatMap fun part => tokens part.scoreBlock)

theorem Group.referencesFrom_enclose (group : Group) {ts : List Token}
    (h : lastCommand? none ts = none) :
    referencesFrom none (group.enclose ts) = referencesFrom none ts := by
  cases group with
  | single _ => rfl
  | bracketed _ barLineSpan _ =>
    have hopen : Refers ("\\new " ++ (if barLineSpan then "StaffGroup" else "ChoirStaff") ++ " <<")
        [] := by
      cases barLineSpan <;> decide
    have hclose : references ">>" = [] := by decide
    have hreferences := hopen.references_eq
    unfold references at hreferences hclose
    unfold enclose
    dsimp only
    rw [List.append_assoc, referencesFrom_append, hreferences, hopen.reads.settled,
      referencesFrom_append, h, hclose]
    simp

namespace Assembly

variable {parts : List EngravedPart}

/-- The block of a group is that of its parts, in a bracket if the group is one. -/
theorem reads_groupBlock (group : Group) {ts : List Token}
    (h : Reads (Text.joinLines (parts.map EngravedPart.scoreBlock)) ts) :
    Reads (groupBlock group parts) (group.enclose ts) := by
  unfold groupBlock
  cases group with
  | single _ => exact h
  | bracketed _ barLineSpan _ =>
    have hopen : Reads
        ("\\new " ++ (if barLineSpan then "StaffGroup" else "ChoirStaff") ++ " <<\n")
        (tokens ("\\new " ++ (if barLineSpan then "StaffGroup" else "ChoirStaff") ++ " <<")) := by
      cases barLineSpan <;> decide
    have hclose : Reads "\n>>" (tokens ">>") := by decide
    exact (hopen.append (h.indent 2)).append hclose

theorem refers_groupBlock (group : Group) (h : ∀ id ∈ macroIds parts, Identifier.IsWord id) :
    Refers (groupBlock group parts) (macroIds parts) := by
  have hparts : List.Forall₂ Refers (parts.map EngravedPart.scoreBlock)
      (parts.map EngravedPart.ids) := by
    rw [forall₂_map_map_iff]
    intro part hpart
    exact EngravedPart.refers_scoreBlock fun id hid => h id (List.mem_flatMap_of_mem hpart hid)
  have hblocks : Refers (Text.joinLines (parts.map EngravedPart.scoreBlock)) (macroIds parts) :=
    refers_joinLines hparts
  refine (reads_groupBlock group hblocks.reads).refers ?_
  rw [group.referencesFrom_enclose hblocks.reads.settled]
  exact hblocks.references_eq

end Assembly

section

variable (groups : List Group) {rows : List (List EngravedPart)} (data : Metadata)
  (settings : Settings)

/-- **In the score every part stands once**, in the order of the parts, and in the bracket of its
group. -/
theorem tokens_scoreFrame (h : ∀ id ∈ macroIds rows.flatten, Identifier.IsWord id) :
    tokens (scoreFrame (List.zipWith Assembly.groupBlock groups rows) data settings).staves =
      (List.zipWith Group.blockTokens groups rows).flatten := by
  have hblocks : List.Forall₂ Reads (List.zipWith Assembly.groupBlock groups rows)
      (List.zipWith Group.blockTokens groups rows) := by
    rw [← List.map_uncurry_zip_eq_zipWith, ← List.map_uncurry_zip_eq_zipWith,
      forall₂_map_map_iff]
    intro entry hentry
    have hrow := macroIds_subset_flatten (List.of_mem_zip hentry).2
    refine Assembly.reads_groupBlock entry.1 (reads_joinLines ?_)
    rw [forall₂_map_map_iff]
    intro part hpart
    have hids : ∀ id ∈ part.ids, Identifier.IsWord id := fun id hid =>
      h id (hrow (List.mem_flatMap_of_mem hpart hid))
    exact (EngravedPart.refers_scoreBlock hids).reads
  exact ((reads_joinLines hblocks).indent 6).tokens_eq

/-- **The staves of the score refer to the macros of all parts**, in their order. -/
theorem refers_scoreFrame (hlength : rows.length = groups.length)
    (h : ∀ id ∈ macroIds rows.flatten, Identifier.IsWord id) :
    Refers (scoreFrame (List.zipWith Assembly.groupBlock groups rows) data settings).staves
      (macroIds rows.flatten) := by
  have hids : rows.map macroIds = (groups.zip rows).map fun entry => macroIds entry.2 := by
    have hsnd : (groups.zip rows).map Prod.snd = rows := List.map_snd_zip (Nat.le_of_eq hlength)
    nth_rewrite 1 [← hsnd]
    rw [List.map_map]
    rfl
  have hblocks : List.Forall₂ Refers (List.zipWith Assembly.groupBlock groups rows)
      (rows.map macroIds) := by
    rw [hids, ← List.map_uncurry_zip_eq_zipWith, forall₂_map_map_iff]
    intro entry hentry
    have hrow := macroIds_subset_flatten (List.of_mem_zip hentry).2
    exact Assembly.refers_groupBlock entry.1 fun id hid => h id (hrow hid)
  have hflatten : (rows.map macroIds).flatten = macroIds rows.flatten := by
    rw [macroIds, List.flatMap_def, List.map_flatten, List.flatten_flatten, List.map_map]
    rfl
  show Refers (Text.indent 6 (Text.joinLines _)) _
  rw [← hflatten]
  exact (refers_joinLines hblocks).indent 6

end

end Scorebook
