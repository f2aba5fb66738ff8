import Mathlib.Data.List.Infix
import Scorebook.Proofs.Source.Token

/-!
# Strings that are assigned

A string is assigned to a name by an equals sign between them. The rule for strings is that of
`Source.scan`, but here it matters what a string holds: a backslash stands for the character behind
it, except that `n` and `t` behind it stand for a line feed and a tab.

**Reading.** `assignments` reads the strings that are assigned, each with the last word of the name
that it is assigned to. Where a text is made of plain characters and of quoted strings (`Assigns`),
what is read are the strings as they were before they were quoted (`Assigns.assignments_eq`).

**Indentation.** Blanks in front of a line are nothing to a name, but they are a part of a string
that goes on in this line. So every string is read with a hanging indent: its lines but the first
are moved to the right (`Assigns.indent`). The last of them is moved even if it is empty, so a
string is the same behind indentation exactly if it has no line feed (`hangAll_eq_self_iff`).
-/

namespace Scorebook.Source

/-! ## Reading -/

/-- What stands in front of the next character, as far as a string may be assigned to it. -/
inductive Lead where
  | nothing
  /-- A word with these letters so far. -/
  | word (letters : List Char)
  /-- A word and blanks. -/
  | spaced (letters : List Char)
  /-- A word and an equals sign. -/
  | equated (letters : List Char)
  deriving DecidableEq, Repr

namespace Lead

/-- Read a character outside of strings. -/
def next (lead : Lead) (c : Char) : Lead :=
  if c.isAlpha then
    match lead with
    | .word letters => .word (letters ++ [c])
    | _ => .word [c]
  else if c.isWhitespace then
    match lead with
    | .word letters => .spaced letters
    | _ => lead
  else if c = '=' then
    match lead with
    | .word letters | .spaced letters => .equated letters
    | _ => .nothing
  else .nothing

/-- The name to which a string is assigned here. -/
def key? : Lead → Option String
  | .equated letters => some (String.ofList letters)
  | _ => none

end Lead

/-- Where the next character stands; in a string, with its name and what it holds so far. -/
inductive Cursor where
  | plain (lead : Lead)
  | literal (key? : Option String) (content : List Char)
  /-- Behind a backslash. -/
  | escaped (key? : Option String) (content : List Char)
  deriving DecidableEq, Repr

/-- What a character stands for behind a backslash. -/
def protectedChar (c : Char) : Char :=
  if c = 'n' then '\n' else if c = 't' then '\t' else c

/-- Read a character: the assignment that is complete by it, and what comes next. -/
def Cursor.step : Cursor → Char → Option (String × String) × Cursor
  | .plain lead, c =>
    if c = '"' then (none, .literal lead.key? []) else (none, .plain (lead.next c))
  | .literal key? content, c =>
    if c = '"' then (key?.map (·, String.ofList content), .plain .nothing)
    else if c = '\\' then (none, .escaped key? content)
    else (none, .literal key? (content ++ [c]))
  | .escaped key? content, c => (none, .literal key? (content ++ [protectedChar c]))

/-- Read characters in a row. -/
def collect : Cursor → List Char → List (String × String)
  | _, [] => []
  | cursor, c :: cs => (cursor.step c).1.toList ++ collect (cursor.step c).2 cs

/-- The strings that are assigned in the text, with their names. -/
def assignments (s : String) : List (String × String) :=
  collect (.plain .nothing) s.toList

example : assignments "\\set Staff.a = \"\\\"b\\\\\" \\clef \"c\" d= \"\"" =
    [("a", "\"b\\"), ("d", "")] := by
  decide

theorem collect_plain_cons {c : Char} (h : c ≠ '"') (lead : Lead) (cs : List Char) :
    collect (.plain lead) (c :: cs) = collect (.plain (lead.next c)) cs := by
  rw [collect, Cursor.step, if_neg h]
  rfl

theorem collect_escapeChar (key? : Option String) (content : List Char) (c : Char)
    (rest : List Char) :
    collect (.literal key? content) (Text.escapeChar c ++ rest) =
      collect (.literal key? (content ++ [c])) rest := by
  unfold Text.escapeChar
  split_ifs with hc
  · have hprotected : protectedChar c = c := by rcases hc with rfl | rfl <;> decide
    show collect (.literal key? (content ++ [protectedChar c])) rest = _
    rw [hprotected]
  · rw [not_or] at hc
    rw [List.singleton_append, collect, Cursor.step, if_neg hc.1, if_neg hc.2]
    rfl

/-- **A string is read as it was before it was escaped.** -/
theorem collect_escape (key? : Option String) (content value rest : List Char) :
    collect (.literal key? content) (value.flatMap Text.escapeChar ++ '"' :: rest) =
      (key?.map (·, String.ofList (content ++ value))).toList ++
        collect (.plain .nothing) rest := by
  induction value generalizing content with
  | nil =>
    rw [List.append_nil]
    rfl
  | cons c value ih =>
    rw [List.flatMap_cons, List.append_assoc, collect_escapeChar, ih, List.append_assoc]
    rfl

/-- A line end completes no assignment. -/
theorem collect_concat_newline (cursor : Cursor) (cs : List Char) :
    collect cursor (cs ++ ['\n']) = collect cursor cs := by
  induction cs generalizing cursor with
  | nil => cases cursor <;> rfl
  | cons c cs ih => rw [List.cons_append, collect, collect, ih]

theorem assignments_append_newline (s : String) : assignments (s ++ "\n") = assignments s := by
  rw [assignments, String.toList_append]
  exact collect_concat_newline _ _

/-! ## Texts of plain characters and strings -/

/-- The character opens no string, and no line end loses it. -/
def IsPlain (c : Char) : Prop :=
  c ≠ '"' ∧ c ≠ '\r'

instance : DecidablePred IsPlain :=
  fun _ => inferInstanceAs (Decidable (_ ∧ _))

/-- All characters are plain. -/
def AllPlain (cs : List Char) : Prop :=
  ∀ c ∈ cs, IsPlain c

instance (cs : List Char) : Decidable (AllPlain cs) :=
  decidable_of_iff (cs.all (fun c => IsPlain c) = true) (by simp [AllPlain])

theorem AllPlain.append {cs ds : List Char} (hcs : AllPlain cs) (hds : AllPlain ds) :
    AllPlain (cs ++ ds) :=
  List.forall_mem_append.2 ⟨hcs, hds⟩

/-- The characters of a kind are plain if it has neither the quote nor the carriage return. -/
theorem isPlain_of_kind {p : Char → Bool} {c : Char} (h : p c = true)
    (hp : ['"', '\r'].any p = false) : IsPlain c := by
  constructor
  · rintro rfl
    exact List.any_eq_false.1 hp '"' (by decide) h
  · rintro rfl
    exact List.any_eq_false.1 hp '\r' (by decide) h

theorem collect_append {front : List Char} (h : AllPlain front) (lead : Lead)
    (rest : List Char) :
    collect (.plain lead) (front ++ rest) =
      collect (.plain (front.foldl Lead.next lead)) rest := by
  induction front generalizing lead with
  | nil => rfl
  | cons c front ih =>
    rw [AllPlain, List.forall_mem_cons] at h
    rw [List.cons_append, collect_plain_cons h.1.1, ih h.2]
    rfl

/-- Whatever comes before it, a string behind these characters is assigned to this name, or to
none. -/
structure Leads (front : List Char) (key? : Option String) : Prop where
  allPlain : AllPlain front
  inLine : '\n' ∉ front
  key?_eq : ∀ lead : Lead, (front.foldl Lead.next lead).key? = key?

/-- The text is made of plain characters and strings, by which these values are assigned. -/
inductive Assigns : List Char → List (String × String) → Prop
  | nil : Assigns [] []
  | plain {c : Char} {cs : List Char} {fields : List (String × String)} :
      IsPlain c → Assigns cs fields → Assigns (c :: cs) fields
  | string {front cs : List Char} {key? : Option String} {fields : List (String × String)}
      (value : List Char) : Leads front key? → Assigns cs fields →
      Assigns (front ++ '"' :: (value.flatMap Text.escapeChar ++ '"' :: cs))
        ((key?.map (·, String.ofList value)).toList ++ fields)

namespace Assigns

variable {cs ds : List Char} {fields others : List (String × String)}

theorem collect_eq (h : Assigns cs fields) (lead : Lead) : collect (.plain lead) cs = fields := by
  induction h generalizing lead with
  | nil => rfl
  | plain hc _ ih => rw [collect_plain_cons hc.1, ih]
  | @string front cs key? fields value hfront _ ih =>
    rw [collect_append hfront.allPlain, collect, Cursor.step, if_pos rfl]
    show collect (.literal (front.foldl Lead.next lead).key? []) _ = _
    rw [hfront.key?_eq, collect_escape, ih, List.nil_append]

/-- **What is read are the values that are assigned.** -/
theorem assignments_eq {s : String} (h : Assigns s.toList fields) : assignments s = fields :=
  h.collect_eq _

theorem append (h : Assigns cs fields) (h' : Assigns ds others) :
    Assigns (cs ++ ds) (fields ++ others) := by
  induction h with
  | nil => exact h'
  | plain hc _ ih => exact .plain hc ih
  | string value hfront _ ih =>
    simp only [List.append_assoc, List.cons_append]
    exact .string value hfront ih

theorem of_allPlain (h : AllPlain cs) : Assigns cs [] := by
  induction cs with
  | nil => exact .nil
  | cons c cs ih =>
    rw [AllPlain, List.forall_mem_cons] at h
    exact .plain h.1 (ih h.2)

theorem plain_append (hds : AllPlain ds) (h : Assigns cs fields) :
    Assigns (ds ++ cs) fields :=
  (of_allPlain hds).append h

theorem append_plain (h : Assigns cs fields) (hds : AllPlain ds) :
    Assigns (cs ++ ds) fields := by
  rw [← List.append_nil fields]
  exact h.append (of_allPlain hds)

/-- A quoted value behind its name. -/
theorem quote {front : String} (key? : Option String) (h : Leads front.toList key?)
    (value : String) :
    Assigns (front ++ Text.quote value).toList (key?.map (·, value)).toList := by
  have hstring := string value.toList h .nil
  rw [Text.quote, String.toList_append, String.toList_append, String.toList_append,
    Text.toList_escape]
  simpa using hstring

theorem joinLines {lines : List String} {fields : List (List (String × String))}
    (h : List.Forall₂ (fun s fields => Assigns s.toList fields) lines fields) :
    Assigns (Text.joinLines lines).toList fields.flatten := by
  refine joinLines_of_append (R := fun s fields => Assigns s.toList fields) .nil
    (.of_allPlain (by decide)) (fun hs ht => ?_) h
  rw [String.toList_append]
  exact hs.append ht

theorem joinLines_map {α : Type} {text : α → String}
    {fields : α → List (String × String)} {items : List α}
    (h : ∀ x ∈ items, Assigns (text x).toList (fields x)) :
    Assigns (Text.joinLines (items.map text)).toList (items.flatMap fields) := by
  rw [List.flatMap_def]
  apply joinLines
  rwa [forall₂_map_map_iff]

end Assigns

/-! ## Hanging indents -/

/-- The blanks in front of a character, if a line starts with it. -/
def margin (width : Nat) (atStart : Bool) : List Char :=
  if atStart then List.replicate width ' ' else []

theorem eq_space_of_mem_margin {width : Nat} {atStart : Bool} {c : Char}
    (h : c ∈ margin width atStart) : c = ' ' := by
  unfold margin at h
  split_ifs at h
  · exact List.eq_of_mem_replicate h
  · cases h

theorem allPlain_margin (width : Nat) (atStart : Bool) : AllPlain (margin width atStart) := by
  intro c hc
  rw [eq_space_of_mem_margin hc]
  decide

/-- Lines of a string as they are moved to the right, from the start of a line or from within one. A
line end loses its carriage return, and an empty line is not moved unless it is the last. -/
def hangFrom (width : Nat) : Bool → List Char → List Char
  | atStart, [] => margin width atStart
  | _, '\n' :: cs => '\n' :: hangFrom width true cs
  | _, '\r' :: '\n' :: cs => '\n' :: hangFrom width true cs
  | atStart, c :: cs => margin width atStart ++ c :: hangFrom width false cs

/-- The string with all lines but the first moved to the right. -/
def hang (width : Nat) (value : String) : String :=
  String.ofList (hangFrom width false value.toList)

example : hang 2 "a\nb\r\n\nc\n" = "a\n  b\n\n  c\n  " := by decide

theorem hangFrom_of_not_mem {width : Nat} (atStart : Bool) {cs : List Char} (h : '\n' ∉ cs) :
    hangFrom width atStart cs = margin width atStart ++ cs := by
  fun_induction hangFrom width atStart cs with
  | case1 => rw [List.append_nil]
  | case2 | case3 => simp at h
  | case4 atStart c cs _ _ ih =>
    rw [ih fun hcs => h (List.mem_cons_of_mem _ hcs)]
    rfl

theorem hang_of_not_mem {width : Nat} {value : String} (h : '\n' ∉ value.toList) :
    hang width value = value := by
  rw [hang, hangFrom_of_not_mem false h, margin, if_neg Bool.false_ne_true, List.nil_append,
    String.ofList_toList]

/-- The characters behind the last line feed. -/
structure LastLine (cs line : List Char) : Prop where
  suffix : '\n' :: line <:+ cs
  not_mem : '\n' ∉ line

namespace LastLine

variable {cs line other : List Char}

theorem unique (h : LastLine cs line) (h' : LastLine cs other) : line = other := by
  rcases List.suffix_or_suffix_of_suffix h.suffix h'.suffix with hsuffix | hsuffix
  · rcases List.suffix_cons_iff.1 hsuffix with heq | hmem
    · exact (List.cons.inj heq).2
    · exact absurd (hmem.subset List.mem_cons_self) h'.not_mem
  · rcases List.suffix_cons_iff.1 hsuffix with heq | hmem
    · exact (List.cons.inj heq).2.symm
    · exact absurd (hmem.subset List.mem_cons_self) h.not_mem

theorem exists_of_mem (h : '\n' ∈ cs) : ∃ line, LastLine cs line := by
  induction cs with
  | nil => cases h
  | cons c cs ih =>
    by_cases hcs : '\n' ∈ cs
    · obtain ⟨line, hline⟩ := ih hcs
      exact ⟨line, hline.suffix.trans (List.suffix_cons _ _), hline.not_mem⟩
    · have hc : '\n' = c := (List.mem_cons.1 h).resolve_right hcs
      rw [← hc]
      exact ⟨cs, List.suffix_rfl, hcs⟩

/-- **The last line is moved** to the right. -/
theorem moved (h : LastLine cs line) (width : Nat) (atStart : Bool) :
    LastLine (hangFrom width atStart cs) (margin width true ++ line) := by
  constructor
  · rw [← hangFrom_of_not_mem true h.not_mem]
    have hsuffix := h.suffix
    fun_induction hangFrom width atStart cs with
    | case1 => simp at hsuffix
    | case2 atStart cs ih =>
      rcases List.suffix_cons_iff.1 hsuffix with heq | hcs
      · rw [(List.cons.inj heq).2]
      · exact (ih ⟨hcs, h.not_mem⟩ hcs).trans (List.suffix_cons _ _)
    | case3 atStart cs ih =>
      have hend := (List.suffix_cons_iff.1 hsuffix).resolve_left (by simp)
      rcases List.suffix_cons_iff.1 hend with heq | hcs
      · rw [(List.cons.inj heq).2]
      · exact (ih ⟨hcs, h.not_mem⟩ hcs).trans (List.suffix_cons _ _)
    | case4 atStart c cs hn _ ih =>
      rcases List.suffix_cons_iff.1 hsuffix with heq | hcs
      · exact absurd (List.cons.inj heq).1.symm hn
      · exact (ih ⟨hcs, h.not_mem⟩ hcs).trans
          ((List.suffix_cons _ _).trans (List.suffix_append _ _))
  · intro hmem
    rcases List.mem_append.1 hmem with hmem | hmem
    · exact absurd (eq_space_of_mem_margin hmem) (by decide)
    · exact h.not_mem hmem

end LastLine

/-- The string with one hanging indent after the other. -/
def hangAll (widths : List Nat) (value : String) : String :=
  widths.foldl (fun value width => hang width value) value

theorem hangAll_of_not_mem (widths : List Nat) {value : String} (h : '\n' ∉ value.toList) :
    hangAll widths value = value := by
  induction widths with
  | nil => rfl
  | cons width widths ih =>
    show hangAll widths (hang width value) = value
    rw [hang_of_not_mem h, ih]

theorem LastLine.hangAll {value : String} {line : List Char} (h : LastLine value.toList line)
    {widths : List Nat} (hwidths : ∀ width ∈ widths, 0 < width) :
    ∃ last, LastLine (hangAll widths value).toList last ∧
      widths.length + line.length ≤ last.length := by
  induction widths generalizing value line with
  | nil => exact ⟨line, h, by simp⟩
  | cons width widths ih =>
    rw [List.forall_mem_cons] at hwidths
    have hmoved := h.moved width false
    rw [← String.toList_ofList (l := hangFrom _ _ _), ← hang] at hmoved
    obtain ⟨last, hlast, hlength⟩ := ih hmoved hwidths.2
    refine ⟨last, hlast, ?_⟩
    have hpositive := hwidths.1
    simp only [margin, if_true, List.length_append, List.length_replicate] at hlength
    rw [List.length_cons]
    omega

/-- **A string is the same behind hanging indents exactly if it has no line feed.** -/
theorem hangAll_eq_self_iff {widths : List Nat} (hne : widths ≠ [])
    (hwidths : ∀ width ∈ widths, 0 < width) {value : String} :
    hangAll widths value = value ↔ '\n' ∉ value.toList := by
  refine ⟨fun h hmem => ?_, hangAll_of_not_mem widths⟩
  obtain ⟨line, hline⟩ := LastLine.exists_of_mem hmem
  obtain ⟨last, hlast, hlength⟩ := hline.hangAll hwidths
  rw [h] at hlast
  rw [hlast.unique hline] at hlength
  have hpositive := List.length_pos_of_ne_nil hne
  omega

/-! ## Indentation -/

/-- The text, or the rest of a line and the text behind it, as its lines are moved to the right. -/
def indentedFrom (width : Nat) (atStart : Bool) (cs : List Char) : List Char :=
  if atStart then ended ((Text.splitLines cs).map (padded width)) else restIndented width cs

section

variable (width : Nat) (atStart : Bool) (cs : List Char)

theorem indentedFrom_newline :
    indentedFrom width atStart ('\n' :: cs) = '\n' :: indentedFrom width true cs := by
  cases atStart <;> rfl

theorem indentedFrom_crlf :
    indentedFrom width atStart ('\r' :: '\n' :: cs) = '\n' :: indentedFrom width true cs := by
  cases atStart <;> rfl

theorem indentedFrom_cons {c : Char} (hc : c ≠ '\n') (hcs : ∀ ds, c = '\r' → cs ≠ '\n' :: ds) :
    indentedFrom width atStart (c :: cs) =
      margin width atStart ++ c :: indentedFrom width false cs := by
  cases atStart <;> cases hlines : Text.splitLines cs <;>
    simp [indentedFrom, restIndented, Text.splitLines, ended, padded, margin, hlines]

/-- A line up to a string in it. -/
theorem indentedFrom_append {front : List Char} (hplain : AllPlain front)
    (hline : '\n' ∉ front) :
    indentedFrom width atStart (front ++ '"' :: cs) =
      margin width atStart ++ front ++ '"' :: indentedFrom width false cs := by
  induction front generalizing atStart with
  | nil =>
    rw [List.nil_append, indentedFrom_cons _ _ _ (by decide) (by simp), List.append_nil]
  | cons c front ih =>
    rw [AllPlain, List.forall_mem_cons] at hplain
    rw [List.mem_cons, not_or] at hline
    have hnext : ∀ ds, c = '\r' → front ++ '"' :: cs ≠ '\n' :: ds :=
      fun _ hc => absurd hc hplain.1.2
    rw [List.cons_append, indentedFrom_cons _ _ _ (Ne.symm hline.1) hnext, ih _ hplain.2 hline.2]
    simp [margin]

theorem indentedFrom_escapeChar {c : Char} (hc : c ≠ '\n')
    (hcs : ∀ ds, c = '\r' → cs ≠ '\n' :: ds) :
    indentedFrom width atStart (Text.escapeChar c ++ cs) =
      margin width atStart ++ Text.escapeChar c ++ indentedFrom width false cs := by
  have hlast (atStart : Bool) := indentedFrom_cons width atStart cs hc hcs
  unfold Text.escapeChar
  split_ifs with hprotected
  · have hslash := indentedFrom_cons width atStart (c :: cs) (c := '\\') (by decide) (by simp)
    rw [List.cons_append, List.singleton_append, hslash, hlast]
    simp [margin]
  · simp [hlast]

/-- What is escaped and quoted starts with a line feed only if it does by itself. -/
theorem escape_ne_newline {value : List Char} (h : ∀ ds, value ≠ '\n' :: ds) (ds : List Char) :
    value.flatMap Text.escapeChar ++ '"' :: cs ≠ '\n' :: ds := by
  cases value with
  | nil => simp
  | cons c value =>
    have hc : c ≠ '\n' := fun hc => h value (by rw [hc])
    rw [List.flatMap_cons, Text.escapeChar]
    split_ifs <;> simp [hc]

/-- **A string gets a hanging indent.** -/
theorem indentedFrom_escape (value : List Char) :
    indentedFrom width atStart (value.flatMap Text.escapeChar ++ '"' :: cs) =
      (hangFrom width atStart value).flatMap Text.escapeChar ++
        '"' :: indentedFrom width false cs := by
  have hmargin (atStart : Bool) : (margin width atStart).flatMap Text.escapeChar =
      margin width atStart := by
    rw [← List.flatMap_singleton' (margin width atStart), List.flatMap_assoc]
    refine List.flatMap_congr fun c hc => ?_
    rw [eq_space_of_mem_margin hc]
    rfl
  fun_induction hangFrom width atStart value with
  | case1 atStart =>
    rw [hmargin]
    exact indentedFrom_cons width atStart cs (by decide) (by simp)
  | case2 atStart value ih =>
    show indentedFrom width atStart ('\n' :: (value.flatMap Text.escapeChar ++ '"' :: cs)) = _
    rw [indentedFrom_newline, ih]
    rfl
  | case3 atStart value ih =>
    show indentedFrom width atStart
      ('\r' :: '\n' :: (value.flatMap Text.escapeChar ++ '"' :: cs)) = _
    rw [indentedFrom_crlf, ih]
    rfl
  | case4 atStart c value hn hcr ih =>
    have hnext : ∀ ds, c = '\r' → value.flatMap Text.escapeChar ++ '"' :: cs ≠ '\n' :: ds :=
      fun ds hc => escape_ne_newline cs (fun ds hvalue => hcr ds hc hvalue) ds
    rw [List.flatMap_cons, List.append_assoc, indentedFrom_escapeChar _ _ _ hn hnext, ih,
      List.flatMap_append, hmargin, List.flatMap_cons]
    simp only [List.append_assoc]

end

namespace Assigns

variable {cs : List Char} {fields : List (String × String)}

theorem indentedFrom (h : Assigns cs fields) (width : Nat) (atStart : Bool) :
    Assigns (indentedFrom width atStart cs) (fields.map (Prod.map id (hang width))) := by
  induction h generalizing atStart with
  | nil =>
    cases atStart
    · exact .plain (by decide) .nil
    · exact .nil
  | @plain c cs fields hc _ ih =>
    by_cases hn : c = '\n'
    · rw [hn, indentedFrom_newline]
      exact .plain (by decide) (ih true)
    · rw [indentedFrom_cons _ _ _ hn fun _ hcr => absurd hcr hc.2]
      exact plain_append (allPlain_margin _ _) (.plain hc (ih false))
  | @string front cs key? fields value hfront _ ih =>
    rw [indentedFrom_append _ _ _ hfront.allPlain hfront.inLine, indentedFrom_escape,
      List.append_assoc]
    refine plain_append (allPlain_margin _ _) ?_
    have hstring := string (hangFrom width false value) hfront (ih false)
    cases key? with
    | none => exact hstring
    | some key => simpa [hang] using hstring

/-- **Behind indentation every string that is assigned has a hanging indent.** -/
theorem indent {s : String} (h : Assigns s.toList fields) (width : Nat) :
    Assigns (Text.indent width s ++ "\n").toList (fields.map (Prod.map id (hang width))) := by
  rw [String.toList_append]
  show Assigns (_ ++ ['\n']) _
  have hlines := h.indentedFrom width true
  by_cases hnil : Text.splitLines s.toList = []
  · rw [toList_indent_of_eq_nil hnil]
    rw [Source.indentedFrom, hnil] at hlines
    exact hlines.append_plain (by decide)
  · rwa [toList_indent hnil]

end Assigns

end Scorebook.Source
