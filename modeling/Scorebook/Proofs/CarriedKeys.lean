import Scorebook.Proofs.Decorations

/-!
# What measures depend on

All that reaches a measure from the measures in front of it is the last key of each voice. The time
signature is carried as well but enters no text, and decorations never cross the end of a measure.

**Two runs.** A measure engraved behind two different beginnings of a staff has the same text in
both, as soon as each voice ends these beginnings in the same key. Nothing has to be shown about
the states that the two runs go through: what they write is determined by the events and the
spelling keys (`Voice.Written.unique`), and the spelling keys by the last keys of the beginnings
(`Staff.spellingKey_congr`).

Main result: `engraveMeasures_spells_in_last_key`.
-/

namespace Scorebook

/-! ## What is written is determined -/

theorem Event.Written.unique {key : Option Key} {before : Voice} {e : Event}
    {cell cell' : Option String} (h : e.Written key before cell) (h' : e.Written key before cell') :
    cell = cell' := by
  cases h with
  | sound hrole htext =>
    cases h' with
    | sound hrole' htext' =>
      cases hrole.symm.trans hrole'
      cases htext.symm.trans htext'
      rfl
    | directive hrole' | decoration hrole' => cases hrole.symm.trans hrole'
  | directive hrole =>
    cases h' with
    | directive hrole' =>
      cases hrole.symm.trans hrole'
      rfl
    | sound hrole' _ | decoration hrole' => cases hrole.symm.trans hrole'
  | decoration hrole =>
    cases h' with
    | decoration _ => rfl
    | sound hrole' _ | directive hrole' => cases hrole.symm.trans hrole'

namespace Voice

variable {key : Voice → Option Key} {voice : Voice} {cells cells' : List (Option String)}

theorem Written.unique (h : voice.Written key cells) (h' : voice.Written key cells') :
    cells = cells' := by
  refine List.ext_getElem? fun i => ?_
  by_cases hi : i < voice.length
  · have hsplit : voice = voice.take i ++ voice[i] :: voice.drop (i + 1) := by simp
    have hlength : (voice.take i).length = i := List.length_take_of_le hi.le
    obtain ⟨cell, hcell, hwritten⟩ := h.written _ _ _ hsplit
    obtain ⟨cell', hcell', hwritten'⟩ := h'.written _ _ _ hsplit
    rw [hlength] at hcell hcell'
    rw [hcell, hcell', hwritten.unique hwritten']
  · rw [List.getElem?_eq_none (by rw [h.length_eq]; omega),
      List.getElem?_eq_none (by rw [h'.length_eq]; omega)]

/-- A chord is written in the key that the events in front of it give. -/
theorem Written.chord (h : voice.Written key cells) {before after : Voice} {chord : Chord}
    (heq : voice = before ++ .chord chord :: after) :
    ∃ own, chord.text (key before) = .ok own ∧
      cells[before.length]? = some (some (own ++ (gap before).attached)) := by
  obtain ⟨cell, hcell, hwritten⟩ := h.written _ _ _ heq
  cases hwritten with
  | sound hrole hown =>
    cases hrole
    exact ⟨_, hown, hcell⟩
  | directive hrole | decoration hrole => cases hrole

end Voice

/-! ## One measure behind two beginnings -/

namespace Staff

/-- The last key that each voice has met in these measures. -/
def lastKeys (measures : List Measure) (i : Nat) : Option Key :=
  (line measures i).lastKey

variable {earlier earlier' : List Measure}

theorem spellingKey_congr (h : lastKeys earlier = lastKeys earlier') (m : Measure) (i : Nat) :
    spellingKey earlier m i = spellingKey earlier' m i := by
  have hkeys (j : Nat) : (line earlier j).lastKey = (line earlier' j).lastKey := congrFun h j
  funext before
  simp only [spellingKey, line_concat, Voice.lastKey_append, hkeys]

/-- The texts of the voices of a measure behind `earlier`, each chord in its key. -/
structure SpellsVoices (earlier : List Measure) (m : Measure) (texts : List String) : Prop where
  length_eq : texts.length = m.voices.length
  written : ∀ (i : Nat) (voice : Voice), m.voices[i]? = some voice → ∃ cells,
    voice.Written (spellingKey earlier m i) cells ∧
    texts[i]? = some (" ".intercalate cells.reduceOption)

theorem SpellsVoices.unique {m : Measure} {texts texts' : List String}
    (h : SpellsVoices earlier m texts) (h' : SpellsVoices earlier' m texts')
    (hkeys : lastKeys earlier = lastKeys earlier') : texts = texts' := by
  refine List.ext_getElem? fun i => ?_
  cases hvoice : m.voices[i]? with
  | none =>
    have hi := List.getElem?_eq_none_iff.1 hvoice
    rw [List.getElem?_eq_none (by rw [h.length_eq]; exact hi),
      List.getElem?_eq_none (by rw [h'.length_eq]; exact hi)]
  | some voice =>
    obtain ⟨cells, hcells, htext⟩ := h.written i voice hvoice
    obtain ⟨cells', hcells', htext'⟩ := h'.written i voice hvoice
    rw [← spellingKey_congr hkeys m i] at hcells'
    rw [htext, htext', hcells.unique hcells']

end Staff

/-- **A measure depends on the last keys in front of it**, and on nothing else there. -/
theorem Measure.engrave_text_congr {earlier earlier' : List Measure} {m : Measure}
    {carried carried' : List Carried} {em em' : EngravedMeasure}
    (hc : Staff.Carries earlier carried) (hc' : Staff.Carries earlier' carried')
    (hkeys : Staff.lastKeys earlier = Staff.lastKeys earlier')
    (h : m.engrave carried = .ok em) (h' : m.engrave carried' = .ok em') : em.text = em'.text := by
  obtain ⟨⟨texts, hlength, hwritten, htext⟩, -⟩ := engrave_eq_ok hc h
  obtain ⟨⟨texts', hlength', hwritten', htext'⟩, -⟩ := engrave_eq_ok hc' h'
  have hspells : Staff.SpellsVoices earlier m texts := ⟨hlength, hwritten⟩
  have hspells' : Staff.SpellsVoices earlier' m texts' := ⟨hlength', hwritten'⟩
  rw [hspells.unique hspells' hkeys, htext'] at htext
  exact (Except.ok.inj htext).symm

/-! ## A whole staff -/

namespace Staff

variable {place place' : Place} {measures measures' : List Measure} {out out' : EngravedMeasures}

theorem engraveMeasures_text_congr (h : engraveMeasures place measures = .ok out)
    (h' : engraveMeasures place' measures' = .ok out')
    {earlier earlier' later later' : List Measure} {m : Measure}
    (heq : measures = earlier ++ m :: later) (heq' : measures' = earlier' ++ m :: later')
    (hkeys : lastKeys earlier = lastKeys earlier') :
    out.texts[earlier.length]? = out'.texts[earlier'.length]? := by
  obtain ⟨-, hall, -⟩ := engraveFrom_eq_ok carries_nil h
  obtain ⟨-, hall', -⟩ := engraveFrom_eq_ok carries_nil h'
  obtain ⟨carried, em, -, hc, hem, htext⟩ := hall earlier m later heq
  obtain ⟨carried', em', -, hc', hem', htext'⟩ := hall' earlier' m later' heq'
  rw [htext, htext', Measure.engrave_text_congr hc hc' hkeys hem hem']

/-- What comes later has no part in the texts of the measures in front of it. -/
theorem engraveMeasures_take_congr {kept later later' : List Measure}
    (h : engraveMeasures place (kept ++ later) = .ok out)
    (h' : engraveMeasures place' (kept ++ later') = .ok out') :
    out.texts.take kept.length = out'.texts.take kept.length := by
  refine List.ext_getElem? fun i => ?_
  rw [List.getElem?_take, List.getElem?_take]
  split_ifs with hi
  · have hsplit : kept = kept.take i ++ kept[i] :: kept.drop (i + 1) := by simp
    have hlength : (kept.take i).length = i := List.length_take_of_le hi.le
    have hbehind (rest : List Measure) :
        kept ++ rest = kept.take i ++ kept[i] :: (kept.drop (i + 1) ++ rest) := by
      rw [← List.cons_append, ← List.append_assoc, ← hsplit]
    have htexts := engraveMeasures_text_congr h h' (hbehind later) (hbehind later') rfl
    rwa [hlength] at htexts
  · rfl

/-- **Every chord is spelled in the last key of its voice**, or else in that of the first voice by
the end of the measure. Behind beginnings that leave the same keys a measure has the same text, and
what comes later changes nothing. -/
theorem engraveMeasures_spells_in_last_key (h : engraveMeasures place measures = .ok out) :
    (∀ earlier m later, measures = earlier ++ m :: later → ∃ texts text,
      texts.length = m.voices.length ∧
      (∀ (i : Nat) (voice : Voice), m.voices[i]? = some voice → ∃ cells : List (Option String),
        cells.length = voice.length ∧ texts[i]? = some (" ".intercalate cells.reduceOption) ∧
        ∀ before chord after, voice = before ++ .chord chord :: after → ∃ own,
          chord.text (spellingKey earlier m i before) = .ok own ∧
          cells[before.length]? = some (some (own ++ (Voice.gap before).attached))) ∧
      Measure.withLength m.length (Measure.layOut texts) = .ok text ∧
      out.texts[earlier.length]? = some text) ∧
    (∀ place' measures' out', engraveMeasures place' measures' = .ok out' →
      ∀ earlier m later earlier' later', measures = earlier ++ m :: later →
        measures' = earlier' ++ m :: later' → lastKeys earlier = lastKeys earlier' →
        out.texts[earlier.length]? = out'.texts[earlier'.length]?) ∧
    (∀ place' kept later later' out', measures = kept ++ later →
      engraveMeasures place' (kept ++ later') = .ok out' →
      out.texts.take kept.length = out'.texts.take kept.length) := by
  refine ⟨fun earlier m later heq => ?_, fun _ _ _ h' _ _ _ _ _ heq heq' hkeys => ?_,
    fun _ _ _ _ _ heq h' => ?_⟩
  · obtain ⟨-, hall, -⟩ := engraveFrom_eq_ok carries_nil h
    obtain ⟨carried, em, -, hc, hem, htext⟩ := hall earlier m later heq
    obtain ⟨⟨texts, hlength, hwritten, hlaidOut⟩, -⟩ := Measure.engrave_eq_ok hc hem
    refine ⟨texts, em.text, hlength, fun i voice hvoice => ?_, hlaidOut, htext⟩
    obtain ⟨cells, hcells, hcellsText⟩ := hwritten i voice hvoice
    exact ⟨cells, hcells.length_eq, hcellsText, fun _ _ _ hchord => hcells.chord hchord⟩
  · exact engraveMeasures_text_congr h h' heq heq' hkeys
  · subst heq
    exact engraveMeasures_take_congr h h'

/-- A chord of one note, black between `c` and `d`. -/
def blackChord : Event :=
  .chord ⟨"quarter", 0, [⟨61, false, []⟩], none, [], []⟩

/-- The first voice goes from sharps to flats, and a second voice without a key of its own comes
and goes. -/
def modulating : List Measure :=
  [⟨false, none, [[.key ⟨2⟩, blackChord, .key ⟨-3⟩], [blackChord]]⟩,
   ⟨false, none, [[blackChord]]⟩,
   ⟨false, none, [[blackChord], [blackChord, .key ⟨1⟩, blackChord]]⟩]

/-- A staff that begins otherwise, but in the end with the same keys. -/
def flat : List Measure :=
  [⟨true, some (mkRat 1 4), [[.time ⟨1, 4⟩, .key ⟨-3⟩, .fermata "fermataAbove"]]⟩,
   ⟨false, none, [[blackChord], [blackChord, .key ⟨1⟩, blackChord]]⟩]

theorem engraveMeasures_modulating :
    engraveMeasures ⟨"P1", none, none⟩ modulating =
      .ok ⟨["<< \x7b \\key d \\major cis'4 \\key es \\major \x7d \\\\ \x7b des'4 \x7d >>", "des'4",
        "<< \x7b des'4 \x7d \\\\ \x7b des'4 \\key g \\major cis'4 \x7d >>"], []⟩ ∧
    lastKeys (modulating.take 2) = lastKeys (flat.take 1) ∧
    ∃ out, engraveMeasures ⟨"P2", none, none⟩ flat = .ok out ∧
      some "<< \x7b des'4 \x7d \\\\ \x7b des'4 \\key g \\major cis'4 \x7d >>" = out.texts[1]? := by
  have h : engraveMeasures ⟨"P1", none, none⟩ modulating =
      .ok ⟨["<< \x7b \\key d \\major cis'4 \\key es \\major \x7d \\\\ \x7b des'4 \x7d >>", "des'4",
        "<< \x7b des'4 \x7d \\\\ \x7b des'4 \\key g \\major cis'4 \x7d >>"], []⟩ := rfl
  have hkeys : lastKeys (modulating.take 2) = lastKeys (flat.take 1) := by
    funext i
    match i with
    | 0 => rfl
    | 1 => rfl
    | _ + 2 => rfl
  exact ⟨h, hkeys, _, rfl,
    (engraveMeasures_spells_in_last_key h).2.1 _ flat _ rfl _ _ [] _ [] rfl rfl hkeys⟩

end Staff

end Scorebook
