import Scorebook.Proofs.Decorations
import Scorebook.Proofs.Source.Duration

/-!
# Reading sounding tokens

A sounding token starts with what sounds: the letter of a rest, the name of a note with its octave
marks, or several notes between angle brackets. Its duration comes next, and marks of all kinds come
last. None of the characters before the duration can start a duration, and no mark carries one on,
so the duration of a token can be found without knowing what was written.
-/

namespace Scorebook

namespace Source

/-- The character belongs to a letter of a rest or to a note. -/
def isNotePart (c : Char) : Bool :=
  c.isAlpha || c = '\'' || c = ',' || c = '!'

/-- What stands behind the rest, the note or the notes that a token starts with. -/
def behindNotes : List Char → List Char
  | '<' :: cs => (cs.dropWhile (· ≠ '>')).tail
  | cs => cs.dropWhile isNotePart

/-- How long a token tells that it sounds, if it tells so properly. -/
def soundingLength? (token : String) : Option Rat :=
  readDuration (behindNotes token.toList)

example : soundingLength? "<c' es'>4.:32->\\p" = some (mkRat 3 8) := by decide +kernel

theorem behindNotes_append {notes rest : List Char} (hne : notes ≠ [])
    (hnotes : ∀ c ∈ notes, isNotePart c = true) (hrest : Stops isNotePart rest) :
    behindNotes (notes ++ rest) = rest := by
  unfold behindNotes
  split
  · next cs heq =>
    cases notes with
    | nil => contradiction
    | cons c notes =>
      cases heq
      cases hnotes '<' List.mem_cons_self
  · exact dropWhile_append_stops hnotes hrest

theorem behindNotes_bracketed {notes : List Char} (h : ∀ c ∈ notes, c ≠ '>') (rest : List Char) :
    behindNotes ('<' :: notes ++ '>' :: rest) = rest := by
  have hnotes : ∀ c ∈ notes, decide (c ≠ '>') = true := fun c hc => decide_eq_true (h c hc)
  rw [List.cons_append, behindNotes, dropWhile_append_stops hnotes (stops_cons (by decide) _)]
  rfl

end Source

open Source

/-! ## Notes and rests -/

theorem isNotePart_of_mem_octaveMarks {octave : Int} {c : Char}
    (h : c ∈ (octaveMarks octave).toList) : isNotePart c = true := by
  have hmarks : ∀ n ≤ maxOctaveMarks,
      (String.join (List.replicate n "'")).toList.all isNotePart = true ∧
        (String.join (List.replicate n ",")).toList.all isNotePart = true := by decide
  unfold octaveMarks at h
  split_ifs at h
  · exact List.all_eq_true.1 (hmarks _ (Nat.min_le_right _ _)).1 c h
  · exact List.all_eq_true.1 (hmarks _ (Nat.min_le_right _ _)).2 c h

theorem NoteName.text_spec (name : NoteName) :
    name.text.toList ≠ [] ∧ name.text.toList.all isNotePart = true := by
  obtain ⟨step, alteration⟩ := name
  cases step <;> cases alteration <;> decide

theorem Pitch.isNotePart_of_mem_text {pitch : Pitch} {c : Char} (h : c ∈ pitch.text.toList) :
    isNotePart c = true := by
  rw [text, String.toList_append, List.mem_append] at h
  rcases h with h | h
  · exact List.all_eq_true.1 pitch.name.text_spec.2 c h
  · exact isNotePart_of_mem_octaveMarks h

namespace Note

theorem toList_text_ne_nil (key : Option Key) (note : Note) : (note.text key).toList ≠ [] := by
  simp [text, Pitch.text, (Pitch.spell key note.pitch).name.text_spec.1]

theorem isNotePart_of_mem_text {key : Option Key} {note : Note} {c : Char}
    (h : c ∈ (note.text key).toList) : isNotePart c = true := by
  rw [text, String.toList_append, List.mem_append] at h
  rcases h with h | h
  · exact Pitch.isNotePart_of_mem_text h
  · split_ifs at h with hshown
    · exact List.all_eq_true.1 (by decide : "!".toList.all isNotePart = true) c h
    · cases h

end Note

theorem Rest.letter_spec (rest : Rest) :
    rest.letter.toList ≠ [] ∧ rest.letter.toList.all isNotePart = true := by
  unfold letter
  split_ifs <;> decide

theorem mem_toList_intercalate {sep : String} {texts : List String} {c : Char}
    (h : c ∈ (sep.intercalate texts).toList) : c ∈ sep.toList ∨ ∃ s ∈ texts, c ∈ s.toList := by
  induction texts with
  | nil => simp at h
  | cons s texts ih =>
    cases texts with
    | nil => exact .inr ⟨s, List.mem_cons_self, by simpa using h⟩
    | cons t texts =>
      rw [String.intercalate_cons_cons, String.toList_append, String.toList_append,
        List.mem_append, List.mem_append] at h
      rcases h with (h | h) | h
      · exact .inr ⟨s, List.mem_cons_self, h⟩
      · exact .inl h
      · exact (ih h).imp_right fun ⟨u, hu, hc⟩ => ⟨u, List.mem_cons_of_mem _ hu, hc⟩

/-- Behind the notes of a chord stands its duration. -/
theorem Chord.behindNotes_body (key : Option Key) (duration : String) (notes : List Note)
    {rest : List Char} (h : Stops isNotePart (duration.toList ++ rest)) :
    behindNotes ((body key duration notes).toList ++ rest) = duration.toList ++ rest := by
  match notes with
  | [] =>
    rw [body, String.toList_append, List.append_assoc]
    exact behindNotes_append (by decide) (List.all_eq_true.1 (by decide)) h
  | [note] =>
    rw [body, String.toList_append, List.append_assoc]
    exact behindNotes_append (Note.toList_text_ne_nil _ _)
      (fun c hc => Note.isNotePart_of_mem_text hc) h
  | first :: second :: more =>
    set notes := first :: second :: more
    have hnotes : ∀ c ∈ (" ".intercalate (notes.map (Note.text key))).toList, c ≠ '>' := by
      rintro c hc rfl
      rcases mem_toList_intercalate hc with hc | ⟨s, hs, hc⟩
      · revert hc
        decide
      · obtain ⟨note, -, rfl⟩ := List.mem_map.1 hs
        cases Note.isNotePart_of_mem_text hc
    have hlist : ("<" ++ " ".intercalate (notes.map (Note.text key)) ++ ">" ++ duration).toList ++
          rest =
        '<' :: (" ".intercalate (notes.map (Note.text key))).toList ++
          '>' :: (duration.toList ++ rest) := by
      simp [String.toList_append]
    show behindNotes (("<" ++ " ".intercalate (notes.map (Note.text key)) ++ ">" ++
      duration).toList ++ rest) = _
    rw [hlist]
    exact behindNotes_bracketed hnotes _

theorem dottedDuration_eq_ok {token : String} {dots : Nat} {text : String}
    (h : dottedDuration token dots = .ok text) :
    ∃ d, Duration.ofToken? token = some d ∧ text = d.text ++ dotsText dots := by
  unfold dottedDuration Duration.resolve at h
  cases hd : Duration.ofToken? token with
  | none =>
    rw [hd] at h
    cases h
  | some d =>
    rw [hd] at h
    cases h
    exact ⟨d, rfl, rfl⟩

theorem Chord.text_eq_ok {chord : Chord} {key : Option Key} {text : String}
    (h : chord.text key = .ok text) :
    ∃ duration, dottedDuration chord.durationType chord.dots = .ok duration ∧
      text = body key duration chord.notes ++ chord.marksText := by
  unfold Chord.text at h
  cases hduration : dottedDuration chord.durationType chord.dots with
  | error e =>
    rw [hduration] at h
    cases h
  | ok duration =>
    rw [hduration] at h
    cases h
    exact ⟨duration, rfl, rfl⟩

/-- No duration starts like a note. -/
theorem Duration.stops_text (d : Duration) (rest : List Char) :
    Stops isNotePart (d.text.toList ++ rest) := by
  cases d with
  | value v =>
    rw [text, NoteValue.text, String.toList_append, List.append_assoc]
    cases v.head <;> exact stops_cons (by decide) _
  | stretched l =>
    rw [text, String.toList_append]
    exact stops_cons (by decide) _

/-! ## Marks -/

theorem Mark.stops_articulation (subtype : String) :
    Stops carriesOn (articulation subtype).toList := by
  unfold articulation
  split <;> decide

theorem Mark.stops_slur (s : Spanner) : Stops carriesOn (slur s).toList := by
  unfold slur
  cases s.starts <;> cases s.ends <;> decide

theorem Mark.stops_hairpin (s : Spanner) : Stops carriesOn (hairpin s).toList := by
  have hall : ∀ opening ∈ ["\\>", "\\<"], ∀ starts ends : Bool,
      Stops carriesOn ((if starts then opening else "") ++ if ends then "\\!" else "").toList := by
    decide
  refine hall _ ?_ s.starts s.ends
  split_ifs <;> decide

namespace Chord

theorem stops_tremoloText (chord : Chord) : Stops carriesOn chord.tremoloText.toList := by
  unfold tremoloText
  split
  · rw [String.toList_append]
    exact stops_cons (by decide) _
  · decide

/-- The marks of a chord do not carry its duration on, whatever its tremolo is called. -/
theorem stops_marksText (chord : Chord) : Stops carriesOn chord.marksText.toList := by
  have harticulations : Stops carriesOn chord.articulationsText.toList := by
    refine stops_join fun s hs => ?_
    obtain ⟨subtype, -, rfl⟩ := List.mem_map.1 hs
    exact Mark.stops_articulation subtype
  have hslurs : Stops carriesOn chord.slursText.toList := by
    refine stops_join fun s hs => ?_
    obtain ⟨spanner, -, rfl⟩ := List.mem_map.1 hs
    exact Mark.stops_slur spanner
  have htie : Stops carriesOn chord.tieText.toList := by
    unfold tieText
    split_ifs <;> decide
  rw [marksText, String.toList_append, String.toList_append, String.toList_append]
  exact ((chord.stops_tremoloText.append harticulations).append hslurs).append htie

end Chord

/-- **No decoration carries a duration on.** -/
theorem Event.stops_mark {e : Event} {category : Category} {mark : String}
    (h : e.role = .decoration category mark) : Stops carriesOn mark.toList := by
  cases e with
  | dynamic subtype =>
    cases h
    unfold Mark.dynamic
    split_ifs
    · rw [String.toList_append]
      exact stops_cons (by decide) _
    · decide
  | spanner s =>
    cases h
    unfold Mark.spanner
    split_ifs
    · exact Mark.stops_hairpin s
    · exact Mark.stops_slur s
    · decide
  | technique kind text =>
    cases h
    unfold Mark.technique
    dsimp only
    split_ifs
    · decide
    · rw [String.toList_append]
      exact stops_cons (by decide) _
  | fermata subtype =>
    cases h
    unfold Mark.fermata
    split <;> decide
  | key _ | time _ | tempo _ | rest _ | chord _ | clef _ | barLine _ => cases h

end Scorebook
