import Scorebook.Proofs.Source.Sound

/-!
# Marks of a chord

Behind its notes and its duration, a chord has a row of marks: a tremolo, then articulations, then
the parentheses of slurs, then a tie.

**What is known.** An articulation is looked up in a table, and only slurs and ties are taken from
the spans of a chord and of its notes. So whatever else a document says in these places is written
as nothing, and none of its characters gets into the row (`Chord.markRow_marksText`). The chord that
keeps only what is known (`Chord.known`) is written alike.

**Tremolos.** A tremolo is written as a colon and what stands behind the first letter of its
subtype, whatever that is. This is a tremolo mark where it is the number of a note value, and
nothing where there is no second letter. In any other case characters of the document are copied. So
a chord is written by what is known alone exactly if its tremolo is of one of those two kinds
(`Chord.text_known_iff`).
-/

namespace Scorebook

/-! ## Rows of marks -/

namespace Mark

/-- The text of the value is a number. -/
def IsNumber (head : NoteHead) : Prop :=
  head.text.toList.all Char.isDigit

instance : DecidablePred IsNumber :=
  fun _ => inferInstanceAs (Decidable (_ = true))

/-- A colon and the number of a note value, or nothing. -/
def IsTremolo (mark : String) : Prop :=
  mark = "" ∨ ∃ head, IsNumber head ∧ mark = ":" ++ head.text

/-- Behind a first letter, the subtype of the tremolo is the number of a note value. -/
def KnowsTremolo (subtype : String) : Prop :=
  ∃ head, IsNumber head ∧ subtype.toList.tail = head.text.toList

instance : DecidablePred KnowsTremolo := fun subtype =>
  decidable_of_iff (∃ head ∈ NoteHead.all, IsNumber head ∧ subtype.toList.tail = head.text.toList)
    (by simp [KnowsTremolo, NoteHead.mem_all])

variable {subtype : String}

theorem KnowsTremolo.tail_ne_nil (h : KnowsTremolo subtype) : subtype.toList.tail ≠ [] := by
  obtain ⟨head, -, hhead⟩ := h
  rw [hhead]
  cases head <;> decide

theorem KnowsTremolo.isTremolo (h : KnowsTremolo subtype) :
    IsTremolo (":" ++ String.ofList subtype.toList.tail) := by
  obtain ⟨head, hnumber, hhead⟩ := h
  exact .inr ⟨head, hnumber, by rw [hhead, String.ofList_toList]⟩

theorem mem_slur {spanner : Spanner} {c : Char} (h : c ∈ (slur spanner).toList) :
    c = '(' ∨ c = ')' := by
  have hall : ∀ starts ends : Bool,
      ((if starts then "(" else "") ++ if ends then ")" else "").toList ⊆ ['(', ')'] := by decide
  simpa using hall spanner.starts spanner.ends h

/-- Behind the text of a tremolo there are texts of articulations, then parentheses, then a tie or
none. -/
def Row (tremolo row : String) : Prop :=
  ∃ (articulations : List String) (parentheses : List Char) (tied : Bool),
    (∀ mark ∈ articulations, ∃ subtype, mark = articulation subtype) ∧
    (∀ c ∈ parentheses, c = '(' ∨ c = ')') ∧
    row = tremolo ++ String.join articulations ++ String.ofList parentheses ++
      if tied then "~" else ""

theorem mem_toList_join {texts : List String} {c : Char} (h : c ∈ (String.join texts).toList) :
    ∃ s ∈ texts, c ∈ s.toList := by
  induction texts with
  | nil => simp at h
  | cons s texts ih =>
    rw [String.join_cons, String.toList_append, List.mem_append] at h
    rcases h with h | h
    · exact ⟨s, List.mem_cons_self, h⟩
    · obtain ⟨t, ht, hc⟩ := ih h
      exact ⟨t, List.mem_cons_of_mem _ ht, hc⟩

/-- What a row is made of besides the tremolo. -/
theorem Row.mem {tremolo row : String} (h : Row tremolo row) {c : Char} (hc : c ∈ row.toList) :
    c ∈ tremolo.toList ∨ (∃ subtype, c ∈ (articulation subtype).toList) ∨ c ∈ ['(', ')', '~'] := by
  obtain ⟨articulations, parentheses, tied, harticulations, hparentheses, rfl⟩ := h
  simp only [String.toList_append, String.toList_ofList, List.mem_append, or_assoc] at hc
  rcases hc with hc | hc | hc | hc
  · exact .inl hc
  · obtain ⟨mark, hmark, hc⟩ := mem_toList_join hc
    obtain ⟨subtype, rfl⟩ := harticulations mark hmark
    exact .inr (.inl ⟨subtype, hc⟩)
  · refine .inr (.inr ?_)
    rcases hparentheses c hc with rfl | rfl <;> simp
  · refine .inr (.inr ?_)
    cases tied <;> simp_all

end Mark

namespace Chord

open Mark

/-- The chord with what is known of its marks, and without the rest. -/
def known (chord : Chord) : Chord :=
  { chord with
    notes := chord.notes.map fun note => { note with ties := note.ties.filter (·.kind = "Tie") }
    tremolo := chord.tremolo.filter (KnowsTremolo ·)
    articulations := chord.articulations.filter (articulation · ≠ "")
    spanners := chord.spanners.filter (·.kind = "Slur") }

/-! ## What is known is written alike -/

/-- Of its notes a chord writes the texts, and nothing else. -/
theorem body_congr {key : Option Key} {notes others : List Note}
    (h : notes.map (Note.text key) = others.map (Note.text key)) (duration : String) :
    body key duration notes = body key duration others := by
  have hlength : notes.length = others.length := by simpa using congrArg List.length h
  match notes, others with
  | [], [] => rfl
  | [note], [other] =>
    have htext : note.text key = other.text key := by simpa using h
    rw [body, body, htext]
  | first :: second :: more, first' :: second' :: more' =>
    show "<" ++ " ".intercalate ((first :: second :: more).map _) ++ ">" ++ duration = _
    rw [h]
    rfl
  | [], _ :: _ | _ :: _, [] | [_], _ :: _ :: _ | _ :: _ :: _, [_] => simp at hlength

variable (chord : Chord)

theorem body_known (key : Option Key) (duration : String) :
    body key duration chord.known.notes = body key duration chord.notes := by
  apply body_congr
  simp only [known, List.map_map]
  rfl

theorem articulationsText_known : chord.known.articulationsText = chord.articulationsText := by
  show String.join ((chord.articulations.filter (articulation · ≠ "")).map articulation) =
    String.join (chord.articulations.map articulation)
  induction chord.articulations with
  | nil => rfl
  | cons subtype subtypes ih =>
    by_cases h : articulation subtype = ""
    · rw [List.filter_cons_of_neg (by simpa using h), List.map_cons, String.join_cons, h, ih,
        String.empty_append]
    · rw [List.filter_cons_of_pos (by simpa using h), List.map_cons, List.map_cons,
        String.join_cons, String.join_cons, ih]

theorem slursText_known : chord.known.slursText = chord.slursText := by
  simp [slursText, known]

theorem tieText_known : chord.known.tieText = chord.tieText := by
  simp [tieText, known, Note.isTied, Function.comp_def]

/-! ## Tremolos -/

variable {chord : Chord} {subtype : String}

theorem tremoloText_of_none (h : chord.tremolo = none) : chord.tremoloText = "" := by
  rw [tremoloText, h]
  rfl

/-- Behind its first letter, the subtype of a tremolo is written as it is. -/
theorem tremoloText_of_some (h : chord.tremolo = some subtype) :
    chord.tremoloText =
      if subtype.toList.tail = [] then "" else ":" ++ String.ofList subtype.toList.tail := by
  rw [tremoloText, h, Option.map_some]
  match subtype.toList with
  | [] | [_] | _ :: _ :: _ => rfl

/-- What is not known of a tremolo is written as nothing exactly if there is nothing to write. -/
theorem tremoloText_known_iff : chord.known.tremoloText = chord.tremoloText ↔
    ∀ subtype ∈ chord.tremolo, KnowsTremolo subtype ∨ subtype.toList.tail = [] := by
  cases hsubtype : chord.tremolo with
  | none => simp [tremoloText, known, hsubtype]
  | some subtype =>
    by_cases hknown : KnowsTremolo subtype
    · have hkept : chord.known.tremolo = chord.tremolo := by simp [known, hsubtype, hknown]
      simp [tremoloText, hkept, hknown]
    · have hnone : chord.known.tremolo = none := by simp [known, hsubtype, hknown]
      rw [tremoloText_of_none hnone, tremoloText_of_some hsubtype]
      by_cases htail : subtype.toList.tail = []
      · simp [htail]
      · have hcolon (s : String) : "" ≠ ":" ++ s := by
          intro h
          have hlist := congrArg String.toList h
          simp at hlist
        simp [htail, hknown, hcolon]

/-- The tremolo of a chord whose tremolo is known is a tremolo mark. -/
theorem isTremolo_tremoloText
    (h : ∀ subtype ∈ chord.tremolo, KnowsTremolo subtype ∨ subtype.toList.tail = []) :
    IsTremolo chord.tremoloText := by
  cases hsubtype : chord.tremolo with
  | none => exact .inl (tremoloText_of_none hsubtype)
  | some subtype =>
    rw [tremoloText_of_some hsubtype]
    rcases h subtype hsubtype with hknown | htail
    · rw [if_neg hknown.tail_ne_nil]
      exact hknown.isTremolo
    · exact .inl (if_pos htail)

/-! ## The row of a chord -/

/-- **Whatever a document says, the marks of a chord are a row** behind its tremolo. -/
theorem row_marksText (chord : Chord) : Row chord.tremoloText chord.marksText := by
  refine ⟨chord.articulations.map articulation, chord.slursText.toList,
    chord.notes.any Note.isTied, ?_, ?_, ?_⟩
  · intro mark hmark
    obtain ⟨subtype, -, rfl⟩ := List.mem_map.1 hmark
    exact ⟨subtype, rfl⟩
  · intro c hc
    obtain ⟨mark, hmark, hc⟩ := mem_toList_join hc
    obtain ⟨spanner, -, rfl⟩ := List.mem_map.1 hmark
    exact mem_slur hc
  · rw [String.ofList_toList]
    rfl

theorem text_known {key : Option Key} {duration : String}
    (h : dottedDuration chord.durationType chord.dots = .ok duration) :
    chord.known.text key = .ok (body key duration chord.notes ++ chord.known.marksText) := by
  have hknown : dottedDuration chord.known.durationType chord.known.dots = .ok duration := h
  rw [Chord.text, hknown]
  show Except.ok (body key duration chord.known.notes ++ _) = _
  rw [body_known]

/-- What is known of its marks is all that a chord writes exactly if its tremolo is. -/
theorem marksText_known_iff : chord.known.marksText = chord.marksText ↔
    ∀ subtype ∈ chord.tremolo, KnowsTremolo subtype ∨ subtype.toList.tail = [] := by
  rw [marksText, marksText, articulationsText_known, slursText_known, tieText_known,
    ← tremoloText_known_iff]
  simp only [String.append_left_inj]

/-- **A chord is written by what is known of its marks exactly if its tremolo has a number behind
its first letter, or nothing.** Whatever it is, behind the notes and the duration comes a row of
marks behind the text of the tremolo, and in this case it is one behind a tremolo mark. -/
theorem text_known_iff {key : Option Key} {text : String} (h : chord.text key = .ok text) :
    ∃ d row, Duration.resolve chord.durationType = .ok d ∧
      text = body key (d.text ++ dotsText chord.dots) chord.notes ++ row ∧
      Source.behindNotes text.toList = (d.text ++ dotsText chord.dots).toList ++ row.toList ∧
      Row chord.tremoloText row ∧
      ((∃ tremolo, IsTremolo tremolo ∧ Row tremolo row) ∧ chord.known.text key = .ok text ↔
        ∀ subtype ∈ chord.tremolo, KnowsTremolo subtype ∨ subtype.toList.tail = []) := by
  obtain ⟨duration, hduration, rfl⟩ := text_eq_ok h
  obtain ⟨d, hd, rfl⟩ := dottedDuration_eq_ok hduration
  refine ⟨d, chord.marksText, by rw [Duration.resolve, hd], rfl, ?_, chord.row_marksText, ?_, ?_⟩
  · rw [String.toList_append]
    refine behindNotes_body key _ chord.notes ?_
    rw [String.toList_append, List.append_assoc]
    exact d.stops_text _
  · rintro ⟨-, hknown⟩
    rw [text_known hduration, Except.ok.injEq, String.append_right_inj] at hknown
    exact marksText_known_iff.1 hknown
  · intro hknown
    refine ⟨⟨_, isTremolo_tremoloText hknown, chord.row_marksText⟩, ?_⟩
    rw [text_known hduration, marksText_known_iff.2 hknown]

/-- A tremolo of thirty-seconds, and besides it articulations, spans and ties of all kinds. -/
def trilled : Chord :=
  ⟨"half", 1, [⟨60, false, [⟨"Tie", true, false, none⟩, ⟨"\"", true, true, none⟩]⟩, ⟨64, true, []⟩],
    some "r32", ["\x7b", "ornamentTrill", "articAccentAbove"],
    [⟨"Ottava", true, true, none⟩, ⟨"Slur", true, false, some "~"⟩]⟩

theorem text_trilled : trilled.text none = .ok "<c' e'!>2.:32\\trill->(~" ∧
    ∃ d row, Duration.resolve trilled.durationType = .ok d ∧
      "<c' e'!>2.:32\\trill->(~" =
        body none (d.text ++ dotsText trilled.dots) trilled.notes ++ row ∧
      (∃ tremolo, IsTremolo tremolo ∧ Row tremolo row) ∧
      trilled.known.text none = .ok "<c' e'!>2.:32\\trill->(~" := by
  have htext : trilled.text none = .ok "<c' e'!>2.:32\\trill->(~" := by decide +kernel
  obtain ⟨d, row, hd, hrow, -, -, hiff⟩ := text_known_iff htext
  exact ⟨htext, d, row, hd, hrow, hiff.2 (by decide)⟩

/-- A tremolo that has no number of strokes. -/
def buzzing : Chord :=
  ⟨"quarter", 0, [⟨60, false, []⟩], some "buzzroll", [], []⟩

/-- **The name of such a tremolo is copied**, and what is written is no row of marks. -/
theorem text_buzzing : buzzing.text none = .ok "c'4:uzzroll" ∧
    buzzing.known.text none = .ok "c'4" ∧
    ¬∃ tremolo, IsTremolo tremolo ∧ Row tremolo ":uzzroll" := by
  refine ⟨by decide +kernel, by decide +kernel, ?_⟩
  rintro ⟨tremolo, htremolo, hrow⟩
  rcases hrow.mem (by decide : 'z' ∈ ":uzzroll".toList) with hz | ⟨subtype, hz⟩ | hz
  · rcases htremolo with rfl | ⟨head, hnumber, rfl⟩
    · simp at hz
    · cases head <;> revert hz <;> decide
  · unfold articulation at hz
    revert hz
    split <;> decide
  · revert hz
    decide

end Chord

end Scorebook
