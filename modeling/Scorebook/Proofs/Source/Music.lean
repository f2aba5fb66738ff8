import Scorebook.Proofs.Source.Nesting
import Scorebook.Proofs.Source.Sound
import Scorebook.Proofs.Source.Reference

/-!
# Pieces of music

Everything that is written into a measure is a piece of source: its tokens are whole, its braces are
closed in it, and its commands are LilyPond's. Most of it is made of letters and numbers. Texts for
the player stand in quotes, and the only text that is written as the document has it is what a
tremolo is called. Where that has neither quotes nor backslashes nor braces, every voice, every
measure and the music of every staff is well-formed too, whatever else the score says
(`Measure.piece_text`, `runs_musicMacro`).
-/

namespace Scorebook

open Source

/-! ## Letters and numbers -/

namespace Source

/-- Characters of a kind that the four characters with a meaning do not belong to. -/
theorem isOrdinary_of_kind {p : Char → Bool} {c : Char} (h : p c = true)
    (hp : ['"', '\\', '\x7b', '\x7d'].any p = false) : isOrdinary c = true := by
  have hne : ∀ d ∈ ['"', '\\', '\x7b', '\x7d'], c ≠ d := by
    rintro d hd rfl
    exact List.any_eq_false.1 hp c hd h
  simp only [List.forall_mem_cons] at hne
  simp [isOrdinary, hne.1, hne.2.1, hne.2.2.1, hne.2.2.2.1]

theorem isOrdinary_of_mem_toString {n : Nat} {c : Char} (h : c ∈ (toString n).toList) :
    isOrdinary c = true := by
  have hdigits : (toString n).toList = Nat.toDigits 10 n := Nat.toList_repr
  rw [hdigits] at h
  exact isOrdinary_of_kind (Nat.isDigit_of_mem_toDigits (by decide) (by decide) h) (by decide)

theorem Ordinary.append {s t : String} (hs : Ordinary s) (ht : Ordinary t) : Ordinary (s ++ t) := by
  intro c hc
  rw [String.toList_append, List.mem_append] at hc
  exact hc.elim (hs c) (ht c)

theorem ordinary_toString (n : Nat) : Ordinary (toString n) :=
  fun _ hc => isOrdinary_of_mem_toString hc

theorem ordinary_toString_int (n : Int) : Ordinary (toString n) := by
  cases n with
  | ofNat n => exact ordinary_toString n
  | negSucc n => exact Ordinary.append (s := "-") (by decide) (ordinary_toString _)

theorem settled_toString (n a : Nat) : Settled [] a (toString n) a :=
  settled_of_ordinary (ordinary_toString n) a

theorem settled_toString_int (n : Int) (a : Nat) : Settled [] a (toString n) a :=
  settled_of_ordinary (ordinary_toString_int n) a

theorem settled_lengthText (l : Rat) (a : Nat) : Settled [] a (lengthText l) a := by
  unfold lengthText
  split_ifs
  · exact settled_toString_int _ a
  · exact ((settled_toString_int _ a).append (settled_of_ordinary (s := "/") (by decide) a)).append
      (settled_toString _ a)

theorem settled_word {id : String} (h : Identifier.IsWord id) (a : Nat) : Settled [] a id a :=
  settled_of_ordinary
    (fun c hc => isOrdinary_of_kind (List.all_eq_true.1 h.2 c hc) (by decide)) a

end Source

/-! ## Durations -/

theorem NoteHead.piece_text (head : NoteHead) : Piece [] 1 head.text 1 := by
  cases head <;> decide

theorem stops_dotsText (dots : Nat) : Stops Char.isAlpha (dotsText dots).toList := by
  rw [toList_dotsText]
  exact stops_replicate (by decide) dots

theorem settled_dotsText (dots : Nat) : Settled [] 1 (dotsText dots) 1 := by
  refine settled_of_ordinary (fun c hc => ?_) 1
  rw [toList_dotsText] at hc
  rw [List.eq_of_mem_replicate hc]
  decide

theorem Duration.piece_text (d : Duration) : Piece [] 1 d.text 1 := by
  cases d with
  | value v => exact v.head.piece_text.append (settled_dotsText _).piece (stops_dotsText _)
  | stretched l =>
    have hwhole : Settled [] 1 "1*" 1 := by decide
    exact (hwhole.append (settled_lengthText l 1)).piece

theorem piece_dottedDuration {token text : String} {dots : Nat}
    (h : dottedDuration token dots = .ok text) : Piece [] 1 text 1 := by
  obtain ⟨d, -, rfl⟩ := dottedDuration_eq_ok h
  exact d.piece_text.append (settled_dotsText dots).piece (stops_dotsText dots)

theorem piece_partialDirective {l : Rat} {text : String} (h : partialDirective l = .ok text) :
    Piece [] 1 text 1 := by
  unfold partialDirective at h
  split at h
  · cases h
    have hcommand : Settled [] 1 "\\partial " 1 := by decide
    exact hcommand.append_piece (Duration.piece_text _)
  · cases h

/-! ## Marks -/

/-- A piece that may stand behind any other, as no command is lengthened by it. -/
structure IsMark (s : String) : Prop where
  piece : Piece [] 1 s 1
  stops : Stops Char.isAlpha s.toList

theorem IsMark.mk' {s : String} (hpiece : Piece [] 1 s 1) (hstops : Stops carriesOn s.toList) :
    IsMark s :=
  ⟨hpiece, hstops.imp fun c hc => by simp [carriesOn, Char.isAlphanum, hc]⟩

theorem IsMark.append {s t : String} (hs : IsMark s) (ht : IsMark t) : IsMark (s ++ t) := by
  refine ⟨hs.piece.append ht.piece ht.stops, ?_⟩
  rw [String.toList_append]
  exact hs.stops.append ht.stops

theorem isMark_empty : IsMark "" :=
  ⟨by decide, by decide⟩

theorem IsMark.join {marks : List String} (h : ∀ s ∈ marks, IsMark s) :
    IsMark (String.join marks) := by
  induction marks with
  | nil => exact isMark_empty
  | cons s marks ih =>
    rw [String.join_cons]
    exact (h s List.mem_cons_self).append (ih fun t ht => h t (List.mem_cons_of_mem _ ht))

theorem Mark.isMark_articulation (subtype : String) : IsMark (articulation subtype) := by
  refine .mk' ?_ (stops_articulation subtype)
  unfold articulation
  split <;> decide

theorem Mark.isMark_slur (s : Spanner) : IsMark (slur s) := by
  refine .mk' ?_ (stops_slur s)
  unfold slur
  cases s.starts <;> cases s.ends <;> decide

theorem Mark.piece_hairpin (s : Spanner) : Piece [] 1 (hairpin s) 1 := by
  have hall : ∀ opening ∈ ["\\>", "\\<"], ∀ starts ends : Bool,
      Piece [] 1 ((if starts then opening else "") ++ if ends then "\\!" else "") 1 := by
    decide
  refine hall _ ?_ s.starts s.ends
  split_ifs <;> decide

/-- **Every decoration is a mark**, also a text for the player. -/
theorem Event.isMark {e : Event} {category : Category} {mark : String}
    (h : e.role = .decoration category mark) : IsMark mark := by
  refine .mk' ?_ (stops_mark h)
  cases e with
  | dynamic subtype =>
    cases h
    unfold Mark.dynamic
    split_ifs with hknown
    · have hall : ∀ name ∈ Mark.dynamics, Piece [] 1 ("\\" ++ name) 1 := by decide
      exact hall subtype hknown
    · exact isMark_empty.piece
  | spanner s =>
    cases h
    unfold Mark.spanner
    split_ifs
    · exact Mark.piece_hairpin s
    · exact (Mark.isMark_slur s).piece
    · exact isMark_empty.piece
  | technique kind text =>
    cases h
    unfold Mark.technique
    dsimp only
    split_ifs
    · exact isMark_empty.piece
    · have habove : Settled [] 1 "^" 1 := by decide
      exact (habove.append (settled_quote _ 1)).piece
  | fermata subtype =>
    cases h
    unfold Mark.fermata
    split <;> decide
  | key _ | time _ | tempo _ | rest _ | chord _ | clef _ | barLine _ => cases h

/-! ## Sounding events -/

/-- What the tremolo of an event is called. -/
def Event.tremolo? : Event → Option String
  | .chord c => c.tremolo
  | _ => none

/-- No quote, backslash or brace is in the name of a tremolo. -/
def Event.PlainTremolo (e : Event) : Prop :=
  ∀ name ∈ e.tremolo?, Ordinary name

instance (e : Event) : Decidable e.PlainTremolo :=
  inferInstanceAs (Decidable (∀ name ∈ e.tremolo?, Ordinary name))

theorem Rest.piece_text {rest : Rest} {text : String} (h : rest.text = .ok text) :
    Piece [] 1 text 1 := by
  unfold Rest.text at h
  dsimp only at h
  split at h
  · next hduration =>
    cases h
    have hletter : Settled [] 1 rest.letter 1 := by
      refine settled_of_ordinary (fun c hc => ?_) 1
      exact isOrdinary_of_kind (List.all_eq_true.1 rest.letter_spec.2 c hc) (by decide)
    exact hletter.append_piece (piece_dottedDuration hduration)
  · cases h

theorem Note.settled_text (key : Option Key) (note : Note) : Settled [] 1 (note.text key) 1 :=
  settled_of_ordinary
    (fun _ hc => isOrdinary_of_kind (isNotePart_of_mem_text hc) (by decide)) 1

namespace Chord

variable {key : Option Key}

theorem piece_body {duration : String} (h : Piece [] 1 duration 1) (notes : List Note) :
    Piece [] 1 (body key duration notes) 1 := by
  match notes with
  | [] =>
    have hspacer : Settled [] 1 "s" 1 := by decide
    exact hspacer.append_piece h
  | [note] => exact (note.settled_text key).append_piece h
  | first :: second :: more =>
    have hopen : Settled [] 1 "<" 1 := by decide
    have hnotes :
        Piece [] 1 (" ".intercalate ((first :: second :: more).map (Note.text key))) 1 := by
      refine .intercalate (by decide) fun s hs => ?_
      obtain ⟨note, -, rfl⟩ := List.mem_map.1 hs
      exact (note.settled_text key).piece
    exact ((hopen.append_piece hnotes).settle (by decide)).append_piece h

variable {chord : Chord}

theorem isMark_tremoloText (h : (Event.chord chord).PlainTremolo) : IsMark chord.tremoloText := by
  refine .mk' ?_ chord.stops_tremoloText
  unfold tremoloText
  split
  · next head c cs hname =>
    obtain ⟨name, htremolo, hname⟩ := Option.map_eq_some_iff.1 hname
    have hstrokes : Settled [] 1 (String.ofList (c :: cs)) 1 := by
      refine settled_of_ordinary (fun d hd => h name htremolo d ?_) 1
      rw [hname]
      exact List.mem_cons_of_mem _ (by simpa using hd)
    have hcolon : Settled [] 1 ":" 1 := by decide
    exact (hcolon.append hstrokes).piece
  · exact isMark_empty.piece

theorem isMark_marksText (h : (Event.chord chord).PlainTremolo) : IsMark chord.marksText := by
  have harticulations : IsMark chord.articulationsText := by
    refine .join fun s hs => ?_
    obtain ⟨subtype, -, rfl⟩ := List.mem_map.1 hs
    exact Mark.isMark_articulation subtype
  have hslurs : IsMark chord.slursText := by
    refine .join fun s hs => ?_
    obtain ⟨spanner, -, rfl⟩ := List.mem_map.1 hs
    exact Mark.isMark_slur spanner
  have htie : IsMark chord.tieText := by
    unfold tieText
    split_ifs
    · exact ⟨by decide, by decide⟩
    · exact isMark_empty
  exact (((isMark_tremoloText h).append harticulations).append hslurs).append htie

theorem piece_text (h : (Event.chord chord).PlainTremolo) {text : String}
    (htext : chord.text key = .ok text) : Piece [] 1 text 1 := by
  have hmarks := isMark_marksText h
  unfold Chord.text at htext
  split at htext
  · next hduration =>
    cases htext
    exact (piece_body (piece_dottedDuration hduration) _).append hmarks.piece hmarks.stops
  · cases htext

end Chord

/-! ## Directives -/

theorem Key.piece_directive (key : Key) : Piece [] 1 key.directive 1 := by
  have htonic : ∀ name : NoteName, Piece [] 1 ("\\key " ++ name.text ++ " \\major") 1 := by
    rintro ⟨step, alteration⟩
    cases step <;> cases alteration <;> decide
  exact htonic key.tonic

theorem TimeSignature.piece_directive (t : TimeSignature) : Piece [] 1 t.directive 1 := by
  have hcommand : Settled [] 1 "\\time " 1 := by decide
  exact (((hcommand.append (settled_toString _ 1)).append
    (settled_of_ordinary (s := "/") (by decide) 1)).append (settled_toString _ 1)).piece

theorem settled_clefDirective (clef : String) : Settled [] 1 (clefDirective clef) 1 := by
  unfold clefDirective clefName
  split <;> decide

theorem piece_barLineDirective {subtype text : String} (h : barLineDirective subtype = some text) :
    Piece [] 1 text 1 := by
  obtain ⟨glyph, hglyph, rfl⟩ := Option.map_eq_some_iff.1 h
  unfold barLineGlyph? at hglyph
  split at hglyph <;> cases hglyph <;> decide

theorem piece_tempoDirective {pace : Option Float} {text : String}
    (h : tempoDirective pace = some text) : Piece [] 1 text 1 := by
  unfold tempoDirective at h
  split at h
  · cases h
  · split_ifs at h
    cases h
    have hcommand : Settled [] 1 "\\tempo 4 = " 1 := by decide
    exact (hcommand.append (settled_toString _ 1)).piece

/-! ## Voices -/

theorem Event.piece_directive {e : Event} {text : String} (h : e.role = .directive (some text)) :
    Piece [] 1 text 1 := by
  cases e with
  | key k =>
    cases h
    exact k.piece_directive
  | time t =>
    cases h
    exact t.piece_directive
  | tempo pace => exact piece_tempoDirective (Role.directive.inj h)
  | clef name =>
    cases h
    exact (settled_clefDirective name).piece
  | barLine subtype => exact piece_barLineDirective (Role.directive.inj h)
  | rest _ | chord _ | fermata _ | technique _ _ | spanner _ | dynamic _ => cases h

theorem Event.piece_sound {e : Event} (he : e.PlainTremolo) {key : Option Key}
    {own : Option Key → Except ConversionError String} {text : String} (h : e.role = .sound own)
    (htext : own key = .ok text) : Piece [] 1 text 1 := by
  cases e with
  | rest r =>
    cases h
    exact Rest.piece_text htext
  | chord c =>
    cases h
    exact Chord.piece_text he htext
  | key _ | time _ | tempo _ | clef _ | barLine _ | fermata _ | technique _ _ | spanner _
    | dynamic _ => cases h

theorem Voice.isMark_attached (events : Voice) : IsMark events.attached := by
  have hmarks (category : Category) : ∀ mark ∈ events.marks category, IsMark mark := by
    intro mark hmark
    obtain ⟨e, -, he⟩ := List.mem_filterMap.1 hmark
    unfold Event.mark? at he
    split at he
    · next hrole =>
      split_ifs at he
      cases he
      exact Event.isMark hrole
    · cases he
  refine .join fun mark hmark => ?_
  simp only [List.mem_append, List.mem_reverse] at hmark
  rcases hmark with ((h | h) | h) | h <;> exact hmarks _ mark h

/-- **What an event is written as is a piece.** -/
theorem Event.Written.piece {key : Option Key} {before : Voice} {e : Event} {text : String}
    (h : e.Written key before (some text)) (he : e.PlainTremolo) : Piece [] 1 text 1 := by
  generalize hcell : some text = cell at h
  cases h with
  | sound hrole htext =>
    cases hcell
    have hmarks := before.gap.isMark_attached
    exact (Event.piece_sound he hrole htext).append hmarks.piece hmarks.stops
  | directive hrole => exact Event.piece_directive (hcell ▸ hrole)
  | decoration _ => cases hcell

theorem Voice.Written.piece {key : Voice → Option Key} {voice : Voice}
    {cells : List (Option String)} (h : voice.Written key cells)
    (hvoice : ∀ e ∈ voice, e.PlainTremolo) :
    Piece [] 1 (" ".intercalate cells.reduceOption) 1 := by
  refine .intercalate (by decide) fun text htext => ?_
  obtain ⟨i, hi, hcell⟩ := List.getElem_of_mem (List.reduceOption_mem_iff.1 htext)
  have hlt : i < voice.length := h.length_eq ▸ hi
  have hsplit : voice = voice.take i ++ voice[i] :: voice.drop (i + 1) := by simp
  obtain ⟨cell, hcell', hwritten⟩ := h.written _ _ _ hsplit
  rw [List.length_take_of_le hlt.le, List.getElem?_eq_getElem hi, hcell] at hcell'
  cases hcell'
  exact hwritten.piece (hvoice _ (List.getElem_mem hlt))

/-! ## Measures -/

namespace Measure

theorem piece_layOut {voices : List String} (h : ∀ v ∈ voices, Piece [] 1 v 1) :
    Piece [] 1 (layOut voices) 1 := by
  match voices with
  | [] => exact isMark_empty.piece
  | [voice] => exact h voice List.mem_cons_self
  | first :: second :: more =>
    have hopen : Settled [] 1 "<< " 1 := by decide
    have hvoices : Piece [] 1 (" \\\\ ".intercalate
        ((first :: second :: more).map fun v => "\x7b " ++ v ++ " \x7d")) 1 := by
      refine .intercalate (by decide) fun s hs => ?_
      obtain ⟨v, hv, rfl⟩ := List.mem_map.1 hs
      have hbrace : Settled [] 1 "\x7b " 2 := by decide
      exact ((hbrace.append_piece ((h v hv).deeper 1)).settle (by decide)).piece
    exact ((hopen.append_piece hvoices).settle (by decide)).piece

theorem piece_withLength {length : Option Rat} {body text : String} (hbody : Piece [] 1 body 1)
    (h : withLength length body = .ok text) : Piece [] 1 text 1 := by
  cases length with
  | none =>
    cases h
    exact hbody
  | some l =>
    obtain ⟨directive, hdirective, rfl⟩ := Except.map_eq_ok.1 h
    exact ((piece_partialDirective hdirective).settle (by decide)).append_piece hbody

/-- **Every measure is a piece.** -/
theorem piece_text {earlier : List Measure} {carried : List Carried} {m : Measure}
    {em : EngravedMeasure} (hc : Staff.Carries earlier carried) (h : m.engrave carried = .ok em)
    (hm : ∀ voice ∈ m.voices, ∀ e ∈ voice, e.PlainTremolo) : Piece [] 1 em.text 1 := by
  obtain ⟨⟨texts, hlength, hvoices, htext⟩, -, -⟩ := engrave_eq_ok hc h
  refine piece_withLength (piece_layOut fun text htext => ?_) htext
  obtain ⟨i, hi, rfl⟩ := List.getElem_of_mem htext
  have hvoice := List.getElem?_eq_getElem (hlength ▸ hi : i < m.voices.length)
  obtain ⟨cells, hcells, heq⟩ := hvoices i _ hvoice
  rw [List.getElem?_eq_getElem hi, Option.some.injEq] at heq
  rw [heq]
  exact hcells.piece (hm _ (List.getElem_mem _))

end Measure

/-- **A macro is one group.** -/
theorem runs_musicMacro {id : String} {measures : List String} (hid : Identifier.IsWord id)
    (h : ∀ m ∈ measures, Piece [] 1 m 1) :
    Runs [] ⟨0, 0⟩ (musicMacro id measures).toList ⟨0, 1⟩ := by
  have hopen : Settled [] 0 " = \x7b\n  " 1 := by decide
  have hmeasures : Piece [] 1 (" |\n  ".intercalate measures) 1 :=
    .intercalate (by decide) h
  exact (((settled_word hid 0).append hopen).append_piece hmeasures).close (by decide)

end Scorebook
