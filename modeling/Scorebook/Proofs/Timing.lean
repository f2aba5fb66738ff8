import Scorebook.Proofs.Source.Sound
import Scorebook.Proofs.TokenLength

/-!
# Timing

**What a document says.** A token means a length, by the name of a note value or as a fraction of a
whole note. A chord and an ordinary rest last the length of their token, stretched by their dots.
The rest of a whole measure lasts the length of its token.

**What is written.** The dots of an event are put behind the duration of its token. Where that
duration is an undotted value, this is how dots are written, and the token of the event is read as
its length. But a fraction may be written with dots or a multiplier of its own, as in `3/4`, which
is `2.`, or in `9/8`, which is `1*9/8`. More dots behind `2.` count on from its own and make too
little of it, and dots behind a multiplier are no duration. So a voice keeps its time exactly if no
such fraction is dotted (`Voice.engrave_keepsTime_iff`), and in every other voice some event sounds
for another time than it should.
-/

namespace Scorebook

/-! ## Lengths in the document -/

def Chord.length? (chord : Chord) : Option Rat :=
  (tokenLength? chord.durationType).map (· * dotFactor chord.dots)

def Rest.length? (rest : Rest) : Option Rat :=
  if rest.isMeasureRest then tokenLength? rest.token
  else (tokenLength? rest.token).map (· * dotFactor rest.dots)

/-- How long an event sounds. -/
def Event.length? : Event → Option Rat
  | .chord c => c.length?
  | .rest r => r.length?
  | _ => none

/-- How long the sounding events of a voice sound, in their order. -/
def Voice.lengths (voice : Voice) : List Rat :=
  voice.filterMap Event.length?

/-! ## Where dots fit -/

/-- There are no dots, or they stand behind a token that means the length of an undotted value. -/
def DotsFit (token : String) (dots : Nat) : Prop :=
  dots = 0 ∨ ∃ head : NoteHead, tokenLength? token = some head.length

def Event.DotsFit : Event → Prop
  | .chord c => Scorebook.DotsFit c.durationType c.dots
  | .rest r => r.isMeasureRest ∨ Scorebook.DotsFit r.token r.dots
  | _ => True

theorem tokenLength?_of_ofToken? {token : String} {d : Duration}
    (h : Duration.ofToken? token = some d) :
    tokenLength? token = some d.length ∧ 0 < d.length ∧
      (d.IsUndotted ↔ ∃ head : NoteHead, d.length = head.length) := by
  rw [Duration.ofToken?_eq] at h
  obtain ⟨l, hl, hd⟩ := Option.bind_eq_some_iff.1 h
  obtain ⟨rfl, hpos⟩ := Duration.ofLength?_eq_some hd
  exact ⟨hl, hpos, Duration.isUndotted_iff_of_ofLength? hd⟩

open Source

/-- A token and its dots are read as the length that they mean exactly where the dots fit. -/
theorem readDuration_dottedDuration_iff {token text : String} {dots : Nat} {rest : List Char}
    (h : dottedDuration token dots = .ok text) (hrest : Stops carriesOn rest) :
    Stops isNotePart (text.toList ++ rest) ∧ ∃ l, tokenLength? token = some l ∧
      (readDuration (text.toList ++ rest) = some (l * dotFactor dots) ↔ DotsFit token dots) := by
  obtain ⟨d, hd, rfl⟩ := dottedDuration_eq_ok h
  obtain ⟨hlength, hpos, hundotted⟩ := tokenLength?_of_ofToken? hd
  have hlist : (d.text ++ dotsText dots).toList = d.text.toList ++ List.replicate dots '.' := by
    rw [String.toList_append, toList_dotsText]
  have hfits : DotsFit token dots ↔ dots = 0 ∨ d.IsUndotted := by
    rw [DotsFit, hundotted, hlength]
    simp only [Option.some.injEq]
  rw [hlist, hfits]
  refine ⟨?_, d.length, hlength, Duration.readDuration_dotted_iff hpos dots hrest⟩
  rw [List.append_assoc]
  exact d.stops_text _

/-! ## Sounding events -/

/-- What an event adds to its voice: a sounding event its own text in some key with marks behind
it, and any other event its directive or nothing. -/
inductive Event.Yields (e : Event) : Option String → Prop
  | sound {own : Option Key → Except ConversionError String} {key : Option Key}
      {text marks : String} : e.role = .sound own → own key = .ok text →
      Stops carriesOn marks.toList → Yields e (some (text ++ marks))
  | directive {text : Option String} : e.role = .directive text → Yields e text
  | decoration {category : Category} {mark : String} :
      e.role = .decoration category mark → Yields e none

/-- The token of a rest tells its length exactly where its dots fit. -/
theorem Rest.soundingLength?_iff {rest : Rest} {text marks : String} (h : rest.text = .ok text)
    (hmarks : Stops carriesOn marks.toList) : ∃ l, rest.length? = some l ∧
      (soundingLength? (text ++ marks) = some l ↔ Event.DotsFit (.rest rest)) := by
  unfold Rest.text at h
  dsimp only at h
  cases hduration : dottedDuration rest.token (if rest.isMeasureRest then 0 else rest.dots) with
  | error e =>
    rw [hduration] at h
    cases h
  | ok duration =>
    rw [hduration] at h
    cases h
    obtain ⟨hstops, l, hl, hiff⟩ := readDuration_dottedDuration_iff hduration hmarks
    have hread : soundingLength? (rest.letter ++ duration ++ marks) =
        readDuration (duration.toList ++ marks.toList) := by
      have hletter : ∀ c ∈ rest.letter.toList, isNotePart c = true :=
        List.all_eq_true.1 rest.letter_spec.2
      rw [soundingLength?, String.append_assoc, String.toList_append, String.toList_append,
        behindNotes_append rest.letter_spec.1 hletter hstops]
    rw [hread, Rest.length?, Event.DotsFit]
    split_ifs at hiff ⊢ with hmeasure
    · rw [dotFactor_zero, mul_one] at hiff
      exact ⟨l, hl, hiff.trans (iff_of_true (.inl rfl) (.inl hmeasure))⟩
    · refine ⟨l * dotFactor rest.dots, by rw [hl]; rfl, hiff.trans ?_⟩
      rw [or_iff_right hmeasure]

/-- The token of a chord tells its length exactly where its dots fit. -/
theorem Chord.soundingLength?_iff {chord : Chord} {key : Option Key} {text marks : String}
    (h : chord.text key = .ok text) (hmarks : Stops carriesOn marks.toList) :
    ∃ l, chord.length? = some l ∧
      (soundingLength? (text ++ marks) = some l ↔ Event.DotsFit (.chord chord)) := by
  obtain ⟨duration, hduration, rfl⟩ := Chord.text_eq_ok h
  obtain ⟨hstops, l, hl, hiff⟩ :=
    readDuration_dottedDuration_iff hduration (chord.stops_marksText.append hmarks)
  have hread : soundingLength? (body key duration chord.notes ++ chord.marksText ++ marks) =
      readDuration (duration.toList ++ (chord.marksText.toList ++ marks.toList)) := by
    rw [soundingLength?, String.append_assoc, String.toList_append, String.toList_append,
      behindNotes_body key duration chord.notes hstops]
  rw [hread]
  exact ⟨l * dotFactor chord.dots, by rw [Chord.length?, hl]; rfl, hiff⟩

/-- **One event.** What a sounding event yields tells its length exactly where its dots fit, and
what is silent has no length. -/
theorem Event.Yields.length?_eq {e : Event} {cell : Option String} (h : e.Yields cell) :
    (e.sounds = true ∧ ∃ token l, cell = some token ∧ e.length? = some l ∧
      (soundingLength? token = some l ↔ e.DotsFit)) ∨
    (e.sounds = false ∧ e.length? = none ∧ e.DotsFit) := by
  cases h with
  | @sound own key text marks hrole htext hmarks =>
    refine .inl ⟨by rw [sounds, hrole], text ++ marks, ?_⟩
    cases e with
    | rest r =>
      cases hrole
      obtain ⟨l, hl, hiff⟩ := r.soundingLength?_iff htext hmarks
      exact ⟨l, rfl, hl, hiff⟩
    | chord c =>
      cases hrole
      obtain ⟨l, hl, hiff⟩ := c.soundingLength?_iff htext hmarks
      exact ⟨l, rfl, hl, hiff⟩
    | _ => cases hrole
  | directive hrole | decoration hrole =>
    refine .inr ⟨by rw [sounds, hrole], ?_⟩
    cases e with
    | rest _ | chord _ => cases hrole
    | _ => exact ⟨rfl, trivial⟩

/-! ## Voices -/

namespace VoiceState

variable {fallback : Option Key} {s t : VoiceState}

/-- No mark that waits would carry a duration on. -/
def MarksStop (s : VoiceState) : Prop :=
  ∀ p ∈ s.carried.pending.waiting, Stops carriesOn p.2.toList

theorem MarksStop.drained (h : s.MarksStop) :
    Stops carriesOn (String.join (Category.order.flatMap fun c =>
      (s.carried.pending.marks c).reverse)).toList := by
  refine stops_join fun mark hmark => ?_
  obtain ⟨c, -, hmark⟩ := List.mem_flatMap.1 hmark
  obtain ⟨p, hp, rfl⟩ := List.mem_map.1 (List.mem_reverse.1 hmark)
  exact h p (List.mem_filter.1 hp).1

theorem MarksStop.step {e : Event} (hs : s.MarksStop) (h : step fallback s e = .ok t) :
    t.MarksStop ∧ ∃ cell, e.Yields cell ∧ t.tokens = s.tokens ++ cell.toList := by
  rcases step_eq_ok h with ⟨own, text, hrole, htext, -, rfl⟩ | ⟨category, mark, hrole, -, rfl⟩ |
    ⟨text, hrole, htokens, hpending, -⟩
  · rw [sound_eq]
    exact ⟨by simp [MarksStop, Pending.empty], _, .sound hrole htext hs.drained, rfl⟩
  · refine ⟨?_, none, .decoration hrole, by simp [decorate]⟩
    intro p hp
    unfold decorate Pending.push at hp
    split_ifs at hp with hmark
    · exact hs p hp
    · rcases List.mem_append.1 hp with hp | hp
      · exact hs p hp
      · rw [List.mem_singleton.1 hp]
        exact Event.stops_mark hrole
  · refine ⟨?_, text, .directive hrole, htokens⟩
    unfold MarksStop
    rw [hpending]
    exact hs

/-- Reading a row of events adds what each of them yields. -/
theorem MarksStop.foldlM {voice : Voice} (hs : s.MarksStop)
    (h : voice.foldlM (VoiceState.step fallback) s = .ok t) :
    ∃ cells, List.Forall₂ Event.Yields voice cells ∧
      t.tokens = s.tokens ++ cells.reduceOption := by
  induction voice generalizing s with
  | nil =>
    cases h
    exact ⟨[], .nil, by simp⟩
  | cons e voice ih =>
    obtain ⟨r, hr, h⟩ := Except.bind_eq_ok.1 h
    obtain ⟨hmarks, cell, hcell, htokens⟩ := hs.step hr
    obtain ⟨cells, hcells, hrest⟩ := ih hmarks h
    refine ⟨cell :: cells, .cons hcell hcells, ?_⟩
    rw [hrest, htokens]
    cases cell <;> simp

end VoiceState

namespace Voice

/-- The tokens of the sounding events, among what the events of a voice yield. -/
def soundingTokens (voice : Voice) (cells : List (Option String)) : List String :=
  (voice.zip cells).filterMap fun (e, cell) => if e.sounds then cell else none

theorem map_soundingLength?_iff {voice : Voice} {cells : List (Option String)}
    (h : List.Forall₂ Event.Yields voice cells) :
    (voice.soundingTokens cells).map soundingLength? = voice.lengths.map some ↔
      ∀ e ∈ voice, e.DotsFit := by
  induction h with
  | nil => simp [soundingTokens, lengths]
  | @cons e cell voice cells he _ ih =>
    rw [List.forall_mem_cons, ← ih]
    rcases he.length?_eq with ⟨hsounds, token, l, rfl, hl, hiff⟩ | ⟨hsilent, hl, hfits⟩
    · have htokens :
          soundingTokens (e :: voice) (some token :: cells) =
            token :: soundingTokens voice cells := by
        simp [soundingTokens, hsounds]
      have hlengths : lengths (e :: voice) = l :: lengths voice := by simp [lengths, hl]
      rw [htokens, hlengths, List.map_cons, List.map_cons, List.cons.injEq, hiff]
    · have htokens :
          soundingTokens (e :: voice) (cell :: cells) = soundingTokens voice cells := by
        simp [soundingTokens, hsilent]
      have hlengths : lengths (e :: voice) = lengths voice := by simp [lengths, hl]
      rw [htokens, hlengths, and_iff_right hfits]

/-- **A voice keeps its time exactly if its dots fit**: read as durations, its sounding tokens are
the lengths of its sounding events, one by one. -/
theorem engrave_keepsTime_iff {fallback : Option Key} {carried : Carried} {voice : Voice}
    {v : EngravedVoice}
    (hwaiting : ∀ p ∈ carried.pending.waiting, Stops carriesOn p.2.toList)
    (h : voice.engrave fallback carried = .ok v) :
    ∃ cells, List.Forall₂ Event.Yields voice cells ∧
      v.text = " ".intercalate cells.reduceOption ∧
      ((voice.soundingTokens cells).map soundingLength? = voice.lengths.map some ↔
        ∀ e ∈ voice, e.DotsFit) := by
  obtain ⟨s, hs, h⟩ := Except.bind_eq_ok.1 h
  cases h
  have hstart : (VoiceState.start carried).MarksStop := hwaiting
  obtain ⟨cells, hcells, htokens⟩ := hstart.foldlM hs
  exact ⟨cells, hcells, by rw [htokens]; rfl, map_soundingLength?_iff hcells⟩

/-- Dots behind a name and behind the fraction of an undotted value, fractions without dots, and a
rest of a whole measure, whose dots do not count. -/
def wellTimed : Voice :=
  [.dynamic "f", .chord ⟨"quarter", 1, [⟨60, false, []⟩], some "r32", [], []⟩,
    .chord ⟨"1/4", 3, [⟨60, false, []⟩, ⟨63, true, []⟩], none, [], []⟩, .tempo none,
    .rest ⟨"half", some " 5/8 ", 0, false⟩, .rest ⟨"measure", some "9/8", 2, true⟩,
    .chord ⟨"long", 1, [], none, ["ornamentTrill"], []⟩, .fermata "fermataAbove"]

theorem dotsFit_wellTimed : ∀ e ∈ wellTimed, e.DotsFit := by
  simp only [wellTimed, List.forall_mem_cons]
  refine ⟨trivial, .inr ⟨.quarter, rfl⟩, .inr ⟨.quarter, by decide +kernel⟩, trivial,
    .inr (.inl rfl), .inl rfl, .inr ⟨.longa, rfl⟩, trivial, by simp⟩

theorem engrave_wellTimed : ∃ v cells, wellTimed.engrave none .start = .ok v ∧
    v.text = "c'4.:32\\f <c' es'!>4... s1*5/8 R1*9/8 s\\longa.\\trill" ∧
    List.Forall₂ Event.Yields wellTimed cells ∧
    v.text = " ".intercalate cells.reduceOption ∧
    (wellTimed.soundingTokens cells).map soundingLength? =
      [some (mkRat 3 8), some (mkRat 15 32), some (mkRat 5 8), some (mkRat 9 8), some 6] := by
  have htext : (wellTimed.engrave none .start).map (·.text) =
      .ok "c'4.:32\\f <c' es'!>4... s1*5/8 R1*9/8 s\\longa.\\trill" := by decide +kernel
  have hlengths : wellTimed.lengths.map some =
      [some (mkRat 3 8), some (mkRat 15 32), some (mkRat 5 8), some (mkRat 9 8), some 6] := by
    decide +kernel
  obtain ⟨v, hv, htext⟩ := Except.map_eq_ok.1 htext
  obtain ⟨cells, hcells, hcellsText, hiff⟩ :=
    engrave_keepsTime_iff (by simp [Carried.start, Pending.empty]) hv
  exact ⟨v, cells, hv, htext, hcells, hcellsText, hlengths ▸ hiff.2 dotsFit_wellTimed⟩

/-- Dots behind fractions that are written with a dot and with a multiplier. -/
def dottedFractions : Voice :=
  [.chord ⟨"3/4", 1, [⟨60, false, []⟩], none, [], []⟩, .rest ⟨"9/8", none, 1, true⟩]

/-- **Such a voice loses its time**: the chord, which lasts nine eighths, is read as seven, and the
rest is written with no duration at all. -/
theorem engrave_dottedFractions :
    (dottedFractions.engrave none .start).map (·.text) =
      .ok (" ".intercalate ["c'2..", "r1*9/8."]) ∧
    dottedFractions.soundingTokens [some "c'2..", some "r1*9/8."] = ["c'2..", "r1*9/8."] ∧
    ["c'2..", "r1*9/8."].map soundingLength? = [some (mkRat 7 8), none] ∧
    dottedFractions.lengths = [mkRat 9 8, mkRat 27 16] :=
  ⟨by decide +kernel, rfl, by decide +kernel, by decide +kernel⟩

end Voice

end Scorebook
