import Mathlib.Data.List.DropRight
import Mathlib.Data.List.ReduceOption
import Scorebook.Engraving.Staff
import Scorebook.Proofs.Outcome

/-!
# Where decorations go

A decoration is attached once or reported once, and it crosses neither a voice nor a measure.

**The gap.** The events behind the last sounding event of a row of events are its *gap*. A
sounding event is written as its own text followed by the marks of the gap in front of it, by
category and the latest first (`attached`). The gap at the end of a voice goes into the report, by
category and the earliest first (`unattached`).

**The key.** A chord is spelled in the last key that its voice has met, in this measure or in an
earlier one, and failing that a voice other than the first is spelled in the last key of the first
voice, this whole measure included (`spellingKey`).

**Invariant.** When the events of a row have been read, the marks that wait are those of its gap,
and the key carried is the last one met (`foldlM_step`). At the end of a voice nothing waits
(`Voice.engrave_eq_ok`), so every voice of every measure starts with nothing that waits
(`Measure.carries_concat`).

Main result: `engraveMeasures_writes_decorations_once`.
-/

namespace Scorebook

/-! ## What events are -/

/-- What an event is to its voice. -/
inductive Role where
  /-- It sounds, and is written as this in a key, if it can be written. -/
  | sound (own : Option Key → Except ConversionError String)
  /-- It belongs to the next sounding event and is written as this mark. -/
  | decoration (category : Category) (mark : String)
  /-- It stands for itself, or for nothing. -/
  | directive (text : Option String)

namespace Event

def role : Event → Role
  | .key k => .directive (some k.directive)
  | .time t => .directive (some t.directive)
  | .tempo pace => .directive (tempoDirective pace)
  | .clef name => .directive (some (clefDirective name))
  | .barLine subtype => .directive (barLineDirective subtype)
  | .dynamic subtype => .decoration .dynamic (Mark.dynamic subtype)
  | .spanner s => .decoration .spanner (Mark.spanner s)
  | .technique kind text => .decoration .text (Mark.technique kind text)
  | .fermata subtype => .decoration .fermata (Mark.fermata subtype)
  | .rest r => .sound fun _ => r.text
  | .chord c => .sound fun k => c.text k

def sounds (e : Event) : Bool :=
  match e.role with
  | .sound _ => true
  | _ => false

/-- The mark that the event is, if it is a decoration of this category and written at all. -/
def mark? (category : Category) (e : Event) : Option String :=
  match e.role with
  | .decoration c mark => if c = category ∧ mark ≠ "" then some mark else none
  | _ => none

def key? : Event → Option Key
  | .key k => some k
  | _ => none

end Event

namespace Voice

/-- The events behind the last one that sounds. -/
def gap (events : Voice) : Voice :=
  events.rtakeWhile fun e => !e.sounds

/-- The marks of one category, the earliest first. -/
def marks (category : Category) (events : Voice) : List String :=
  events.filterMap (Event.mark? category)

/-- The marks as they are put behind a sounding event. -/
def attached (events : Voice) : String :=
  String.join ((events.marks .dynamic).reverse ++ (events.marks .spanner).reverse ++
    (events.marks .text).reverse ++ (events.marks .fermata).reverse)

/-- The marks as they are reported. -/
def unattached (events : Voice) : List (Category × String) :=
  (events.marks .dynamic).map (.dynamic, ·) ++ (events.marks .spanner).map (.spanner, ·) ++
    (events.marks .text).map (.text, ·) ++ (events.marks .fermata).map (.fermata, ·)

def lastKey (events : Voice) : Option Key :=
  (events.filterMap Event.key?).getLast?

theorem gap_concat_of_sounds (events : Voice) {e : Event} (h : e.sounds = true) :
    gap (events ++ [e]) = [] :=
  List.rtakeWhile_concat_neg _ _ _ (by simp [h])

theorem gap_concat_of_silent (events : Voice) {e : Event} (h : e.sounds = false) :
    gap (events ++ [e]) = gap events ++ [e] :=
  List.rtakeWhile_concat_pos _ _ _ (by simp [h])

theorem marks_append (category : Category) (events more : Voice) :
    marks category (events ++ more) = marks category events ++ marks category more :=
  List.filterMap_append

theorem lastKey_append (events more : Voice) :
    lastKey (events ++ more) = (lastKey more).or (lastKey events) := by
  simp [lastKey, List.filterMap_append, List.getLast?_append]

end Voice

/-- What an event is written as behind the events `before` of its voice, in this key; an empty
cell stands for nothing at all. -/
inductive Event.Written (key : Option Key) (before : Voice) (e : Event) : Option String → Prop
  | sound {own : Option Key → Except ConversionError String} {text : String} :
      e.role = .sound own → own key = .ok text →
      Written key before e (some (text ++ (Voice.gap before).attached))
  | directive {text : Option String} : e.role = .directive text → Written key before e text
  | decoration {category : Category} {mark : String} :
      e.role = .decoration category mark → Written key before e none

/-- A voice is written as a row of cells, one for each event, where the key depends on the events
in front of the event. -/
structure Voice.Written (key : Voice → Option Key) (voice : Voice) (cells : List (Option String)) :
    Prop where
  length_eq : cells.length = voice.length
  written : ∀ before e after, voice = before ++ e :: after →
    ∃ cell, cells[before.length]? = some cell ∧ e.Written (key before) before cell

theorem Voice.Written.concat {key : Voice → Option Key} {voice : Voice}
    {cells : List (Option String)} {e : Event} {cell : Option String}
    (h : voice.Written key cells) (he : e.Written (key voice) voice cell) :
    Voice.Written key (voice ++ [e]) (cells ++ [cell]) where
  length_eq := by simp [h.length_eq]
  written before e' after heq := by
    rcases List.eq_nil_or_concat after with rfl | ⟨after, last, rfl⟩
    · obtain ⟨rfl, hlast⟩ := List.append_inj' heq rfl
      obtain rfl : e = e' := by simpa using hlast
      exact ⟨cell, by simp [← h.length_eq], he⟩
    · have heq : voice ++ [e] = (before ++ e' :: after) ++ [last] := by simpa using heq
      obtain ⟨rfl, -⟩ := List.append_inj' heq rfl
      obtain ⟨c, hc, hw⟩ := h.written before e' after rfl
      have hlt : before.length < cells.length := (List.getElem?_eq_some_iff.1 hc).1
      exact ⟨c, by rw [List.getElem?_append_left hlt, hc], hw⟩

/-! ## One voice -/

namespace VoiceState

variable {fallback : Option Key} {s t : VoiceState} {e : Event}

/-- What reading one event does to the state. -/
theorem step_eq_ok (h : step fallback s e = .ok t) :
    (∃ own text, e.role = .sound own ∧ own (s.carried.spellingKey fallback) = .ok text ∧
      e.key? = none ∧ t = s.sound text) ∨
    (∃ category mark, e.role = .decoration category mark ∧ e.key? = none ∧
      t = s.decorate category mark) ∨
    (∃ text, e.role = .directive text ∧ t.tokens = s.tokens ++ text.toList ∧
      t.carried.pending = s.carried.pending ∧ t.carried.key = e.key?.or s.carried.key) := by
  cases e with
  | rest r =>
    obtain ⟨text, htext, rfl⟩ := Except.map_eq_ok.1 h
    exact .inl ⟨_, text, rfl, htext, rfl, rfl⟩
  | chord c =>
    obtain ⟨text, htext, rfl⟩ := Except.map_eq_ok.1 h
    exact .inl ⟨_, text, rfl, htext, rfl, rfl⟩
  | dynamic _ | spanner _ | technique _ _ | fermata _ =>
    cases h
    exact .inr (.inl ⟨_, _, rfl, rfl, rfl⟩)
  | key _ | time _ | tempo _ | clef _ | barLine _ =>
    cases h
    exact .inr (.inr ⟨_, rfl, rfl, rfl, rfl⟩)

/-- The state fits the events read since the voice carried `key`. -/
structure Fits (key : Option Key) (events : Voice) (s : VoiceState) : Prop where
  marks : ∀ c, s.carried.pending.marks c = events.gap.marks c
  key : s.carried.key = events.lastKey.or key

theorem sound_eq (s : VoiceState) (text : String) :
    s.sound text =
      ⟨s.tokens ++ [text ++ String.join (Category.order.flatMap fun c =>
        (s.carried.pending.marks c).reverse)], { s.carried with pending := .empty }⟩ := by
  simp [sound, Pending.drain_eq]

theorem marks_decorate (s : VoiceState) (category c : Category) (mark : String) :
    (s.decorate category mark).carried.pending.marks c =
      s.carried.pending.marks c ++ if category = c ∧ mark ≠ "" then [mark] else [] := by
  by_cases hmark : mark = ""
  · simp [decorate, hmark, Pending.push_blank]
  · simp [decorate, hmark, Pending.marks_push]

theorem step_fits {key : Option Key} {events : Voice} (h : step fallback s e = .ok t)
    (hs : Fits key events s) :
    Fits key (events ++ [e]) t ∧ ∃ cell, t.tokens = s.tokens ++ cell.toList ∧
      e.Written (s.carried.spellingKey fallback) events cell := by
  have hlast : Voice.lastKey (events ++ [e]) = e.key?.or events.lastKey := by
    rw [Voice.lastKey_append]
    cases hk : e.key? <;> simp [Voice.lastKey, hk]
  rcases step_eq_ok h with ⟨own, text, hrole, htext, hkey, rfl⟩ |
    ⟨category, mark, hrole, hkey, rfl⟩ | ⟨text, hrole, htokens, hpending, hkey⟩
  · have hgap : Voice.gap (events ++ [e]) = [] :=
      Voice.gap_concat_of_sounds events (by simp [Event.sounds, hrole])
    have hattached : events.gap.attached = String.join (Category.order.flatMap fun c =>
        (s.carried.pending.marks c).reverse) := by
      simp [Voice.attached, Category.order, hs.marks]
    rw [sound_eq]
    refine ⟨⟨fun c => by simp [hgap, Pending.marks_empty, Voice.marks], ?_⟩,
      some (text ++ events.gap.attached), by simp [hattached], .sound hrole htext⟩
    rw [hlast, hkey]
    exact hs.key
  · have hgap : Voice.gap (events ++ [e]) = events.gap ++ [e] :=
      Voice.gap_concat_of_silent events (by simp [Event.sounds, hrole])
    refine ⟨⟨fun c => ?_, ?_⟩, none, by simp [decorate], .decoration hrole⟩
    · rw [marks_decorate, hgap, Voice.marks_append, hs.marks]
      by_cases hc : category = c ∧ mark ≠ "" <;> simp [Voice.marks, Event.mark?, hrole, hc]
    · rw [hlast, hkey]
      exact hs.key
  · have hgap : Voice.gap (events ++ [e]) = events.gap ++ [e] :=
      Voice.gap_concat_of_silent events (by simp [Event.sounds, hrole])
    refine ⟨⟨fun c => ?_, ?_⟩, text, htokens, .directive hrole⟩
    · rw [hpending, hgap, Voice.marks_append, hs.marks]
      simp [Voice.marks, Event.mark?, hrole]
    · rw [hlast, hkey, hs.key, Option.or_assoc]

/-- **What a row of events leaves behind**: the marks of its gap wait, and its last key is
carried. -/
theorem foldlM_step {carried : Carried} (hempty : carried.pending = .empty) {voice : Voice}
    (h : voice.foldlM (step fallback) (.start carried) = .ok s) :
    Fits carried.key voice s ∧ ∃ cells,
      voice.Written (fun before => before.lastKey.or (carried.spellingKey fallback)) cells ∧
      s.tokens = cells.reduceOption := by
  induction voice using List.reverseRecOn generalizing s with
  | nil =>
    cases h
    refine ⟨⟨?_, rfl⟩, [], ⟨rfl, by simp⟩, rfl⟩
    intro c
    show carried.pending.marks c = []
    rw [hempty, Pending.marks_empty]
  | append_singleton voice e ih =>
    rw [List.foldlM_append] at h
    obtain ⟨r, hr, h⟩ := Except.bind_eq_ok.1 h
    obtain ⟨t, ht, hs⟩ := Except.bind_eq_ok.1 h
    cases hs
    obtain ⟨hfits, cells, hcells, htokens⟩ := ih hr
    obtain ⟨hfits', cell, htoken, hcell⟩ := step_fits ht hfits
    refine ⟨hfits', cells ++ [cell], hcells.concat ?_, ?_⟩
    · have hkey : r.carried.spellingKey fallback =
          (Voice.lastKey voice).or (carried.spellingKey fallback) := by
        simp [Carried.spellingKey, hfits.key, Option.or_assoc]
      exact hkey ▸ hcell
    · rw [htoken, htokens, List.reduceOption_append]
      cases cell <;> rfl

end VoiceState

/-- **One voice of one measure.** -/
theorem Voice.engrave_eq_ok {fallback : Option Key} {carried : Carried}
    (hempty : carried.pending = .empty) {voice : Voice} {v : EngravedVoice}
    (h : voice.engrave fallback carried = .ok v) :
    (∃ cells,
      voice.Written (fun before => before.lastKey.or (carried.spellingKey fallback)) cells ∧
      v.text = " ".intercalate cells.reduceOption) ∧
    v.leftOver = voice.gap.unattached ∧ v.carried.pending = .empty ∧
    v.carried.key = voice.lastKey.or carried.key := by
  obtain ⟨s, hs, h⟩ := Except.bind_eq_ok.1 h
  obtain ⟨hfits, cells, hcells, htokens⟩ := VoiceState.foldlM_step hempty hs
  rw [Pending.take_eq] at h
  cases h
  refine ⟨⟨cells, hcells, by rw [htokens]⟩, ?_, rfl, hfits.key⟩
  simp [Voice.unattached, Category.order, hfits.marks]

/-! ## The voices of a measure -/

namespace Measure

/-- The events of a voice; there are none where the measure lacks it. -/
def voice (m : Measure) (i : Nat) : Voice :=
  m.voices.getD i []

variable {carried : List Carried} {voices : List Voice} {vs : List EngravedVoice}

theorem engraveLower_eq_ok {fallback : Option Key}
    (h : engraveLower fallback carried voices = .ok vs) :
    vs.length = voices.length ∧ ∀ (i : Nat) (voice : Voice) (v : EngravedVoice),
      voices[i]? = some voice → vs[i]? = some v →
      voice.engrave fallback (carried.getD i .start) = .ok v := by
  induction voices generalizing carried vs with
  | nil =>
    cases h
    exact ⟨rfl, by simp⟩
  | cons first voices ih =>
    obtain ⟨v, hv, h⟩ := Except.bind_eq_ok.1 h
    obtain ⟨rest, hrest, h⟩ := Except.bind_eq_ok.1 h
    cases h
    obtain ⟨hlen, hrest⟩ := ih hrest
    refine ⟨by simp [hlen], ?_⟩
    intro i voice w hvoice hw
    cases i with
    | zero =>
      cases hvoice
      cases hw
      cases carried <;> exact hv
    | succ i =>
      have := hrest i voice w hvoice hw
      cases carried <;> exact this

/-- The key that a voice falls back on, which is that of the first voice after the measure. -/
def fallbackKey (vs : List EngravedVoice) (i : Nat) : Option Key :=
  if i = 0 then none else vs.head?.bind (·.carried.key)

theorem engraveVoices_eq_ok (h : engraveVoices carried voices = .ok vs) :
    vs.length = voices.length ∧ ∀ (i : Nat) (voice : Voice) (v : EngravedVoice),
      voices[i]? = some voice → vs[i]? = some v →
      voice.engrave (fallbackKey vs i) (carried.getD i .start) = .ok v := by
  cases voices with
  | nil =>
    cases h
    exact ⟨rfl, by simp⟩
  | cons first voices =>
    obtain ⟨v, hv, h⟩ := Except.bind_eq_ok.1 h
    obtain ⟨lower, hlower, h⟩ := Except.bind_eq_ok.1 h
    cases h
    obtain ⟨hlen, hlower⟩ := engraveLower_eq_ok hlower
    refine ⟨by simp [hlen], ?_⟩
    intro i voice w hvoice hw
    cases i with
    | zero =>
      cases hvoice
      cases hw
      cases carried <;> exact hv
    | succ i =>
      have := hlower i voice w hvoice hw
      cases carried <;> exact this

end Measure

/-! ## Carrying on from measure to measure -/

namespace Staff

/-- All that a voice reads in these measures. -/
def line (measures : List Measure) (i : Nat) : Voice :=
  measures.flatMap (·.voice i)

/-- The key in which a chord is spelled that stands behind the events `before` in voice `i` of the
measure `m`, when the measures `earlier` come first. -/
def spellingKey (earlier : List Measure) (m : Measure) (i : Nat) (before : Voice) : Option Key :=
  (Voice.lastKey (line earlier i ++ before)).or
    (if i = 0 then none else (line (earlier ++ [m]) 0).lastKey)

/-- What is carried after these measures: nothing waits, and each voice has its last key. -/
def Carries (measures : List Measure) (carried : List Carried) : Prop :=
  ∀ i, (carried.getD i .start).pending = .empty ∧
    (carried.getD i .start).key = (line measures i).lastKey

theorem carries_nil : Carries [] [] :=
  fun _ => ⟨rfl, rfl⟩

theorem Carries.pending_eq {measures : List Measure} {carried : List Carried}
    (h : Carries measures carried) : ∀ c ∈ carried, c.pending = .empty := by
  intro c hc
  obtain ⟨i, hi⟩ := List.mem_iff_getElem?.1 hc
  have := (h i).1
  rwa [List.getD_eq_getElem?_getD, hi] at this

theorem line_concat (measures : List Measure) (m : Measure) (i : Nat) :
    line (measures ++ [m]) i = line measures i ++ m.voice i := by
  simp [line]

end Staff

namespace Measure

variable {earlier : List Measure} {carried : List Carried} {m : Measure}
  {vs : List EngravedVoice}

/-- The key of a voice after a measure is the last one it has met. -/
theorem engraveVoices_key (hc : Staff.Carries earlier carried)
    (h : engraveVoices carried m.voices = .ok vs) {i : Nat} {voice : Voice} {v : EngravedVoice}
    (hvoice : m.voices[i]? = some voice) (hv : vs[i]? = some v) :
    v.carried.key = (Staff.line (earlier ++ [m]) i).lastKey := by
  have hengrave := (engraveVoices_eq_ok h).2 i voice v hvoice hv
  obtain ⟨-, -, -, hkey⟩ := Voice.engrave_eq_ok (hc i).1 hengrave
  rw [hkey, (hc i).2, Staff.line_concat, Voice.lastKey_append, Measure.voice,
    List.getD_eq_getElem?_getD, hvoice]
  rfl

/-- The key to fall back on is the one that the first voice has at the end of the measure. -/
theorem fallbackKey_eq (hc : Staff.Carries earlier carried)
    (h : engraveVoices carried m.voices = .ok vs) {i : Nat} {voice : Voice} {v : EngravedVoice}
    (hvoice : m.voices[i]? = some voice) (hv : vs[i]? = some v) :
    fallbackKey vs i = if i = 0 then none else (Staff.line (earlier ++ [m]) 0).lastKey := by
  unfold fallbackKey
  split_ifs with hi
  · rfl
  · cases hvoices : m.voices with
    | nil => simp [hvoices] at hvoice
    | cons first _ =>
      cases vs with
      | nil => simp at hv
      | cons w _ =>
        have hfirst : m.voices[0]? = some first := by rw [hvoices]; rfl
        exact engraveVoices_key hc h hfirst rfl

/-- What is known of the voices of a measure once they are engraved. -/
theorem engraveVoices_carries (hc : Staff.Carries earlier carried)
    (h : engraveVoices carried m.voices = .ok vs) {i : Nat} {voice : Voice} {v : EngravedVoice}
    (hvoice : m.voices[i]? = some voice) (hv : vs[i]? = some v) :
    (∃ cells, voice.Written (Staff.spellingKey earlier m i) cells ∧
      v.text = " ".intercalate cells.reduceOption) ∧
    v.leftOver = voice.gap.unattached ∧ v.carried.pending = .empty ∧
    v.carried.key = (Staff.line (earlier ++ [m]) i).lastKey := by
  have hengrave := (engraveVoices_eq_ok h).2 i voice v hvoice hv
  obtain ⟨⟨cells, hcells, htext⟩, hleft, hempty, -⟩ := Voice.engrave_eq_ok (hc i).1 hengrave
  refine ⟨⟨cells, ?_, htext⟩, hleft, hempty, engraveVoices_key hc h hvoice hv⟩
  have hkey : Staff.spellingKey earlier m i = fun before =>
      before.lastKey.or ((carried.getD i .start).spellingKey (fallbackKey vs i)) := by
    funext before
    rw [Carried.spellingKey, (hc i).2, fallbackKey_eq hc h hvoice hv]
    simp [Staff.spellingKey, Voice.lastKey_append, Option.or_assoc]
  rw [hkey]
  exact hcells

theorem exists_engraved (h : engraveVoices carried m.voices = .ok vs) {i : Nat} {voice : Voice}
    (hvoice : m.voices[i]? = some voice) : ∃ v, vs[i]? = some v := by
  have hlen := (engraveVoices_eq_ok h).1
  have hlt := (List.getElem?_eq_some_iff.1 hvoice).1
  exact ⟨vs[i], List.getElem?_eq_getElem (by omega)⟩

theorem flatMap_leftOver (hc : Staff.Carries earlier carried)
    (h : engraveVoices carried m.voices = .ok vs) :
    vs.flatMap EngravedVoice.leftOver =
      m.voices.flatMap fun voice => voice.gap.unattached := by
  have hlen := (engraveVoices_eq_ok h).1
  rw [List.flatMap_def, List.flatMap_def]
  congr 1
  refine List.ext_getElem? ?_
  intro i
  rw [List.getElem?_map, List.getElem?_map]
  cases hi : m.voices[i]? with
  | none =>
    have hnone : vs[i]? = none := by
      rw [List.getElem?_eq_none_iff] at hi ⊢
      omega
    rw [hnone]
    rfl
  | some voice =>
    obtain ⟨v, hv⟩ := exists_engraved h hi
    rw [hv, Option.map_some, Option.map_some, (engraveVoices_carries hc h hi hv).2.1]

/-- What a measure carries on, where it lacks a voice as well. -/
theorem carries_concat (hc : Staff.Carries earlier carried)
    (h : engraveVoices carried m.voices = .ok vs) :
    Staff.Carries (earlier ++ [m])
      (vs.map EngravedVoice.carried ++ carried.drop m.voices.length) := by
  have hlen := (engraveVoices_eq_ok h).1
  intro i
  rw [List.getD_eq_getElem?_getD]
  by_cases hi : i < m.voices.length
  · have hvoice := List.getElem?_eq_getElem hi
    obtain ⟨v, hv⟩ := exists_engraved h hvoice
    rw [List.getElem?_append_left (by simp [hlen, hi]), List.getElem?_map, hv]
    exact (engraveVoices_carries hc h hvoice hv).2.2
  · have hvoice : m.voice i = [] := by
      rw [Measure.voice, List.getD_eq_getElem?_getD, List.getElem?_eq_none (by omega)]
      rfl
    rw [List.getElem?_append_right (by simp [hlen]; omega), List.getElem?_drop, List.length_map,
      hlen, Nat.add_sub_cancel' (by omega), ← List.getD_eq_getElem?_getD, Staff.line_concat,
      hvoice, List.append_nil]
    exact hc i

/-- **One measure.** -/
theorem engrave_eq_ok {em : EngravedMeasure} (hc : Staff.Carries earlier carried)
    (h : m.engrave carried = .ok em) :
    (∃ texts : List String, texts.length = m.voices.length ∧
      (∀ (i : Nat) (voice : Voice), m.voices[i]? = some voice → ∃ cells,
        voice.Written (Staff.spellingKey earlier m i) cells ∧
        texts[i]? = some (" ".intercalate cells.reduceOption)) ∧
      withLength m.length (layOut texts) = .ok em.text) ∧
    em.leftOver = m.voices.flatMap (fun voice => voice.gap.unattached) ∧
    Staff.Carries (earlier ++ [m]) em.carried := by
  obtain ⟨vs, hvs, h⟩ := Except.bind_eq_ok.1 h
  obtain ⟨text, htext, h⟩ := Except.bind_eq_ok.1 h
  cases h
  have hlen : vs.length = m.voices.length := (engraveVoices_eq_ok hvs).1
  refine ⟨⟨vs.map EngravedVoice.text, by simp [hlen], ?_, htext⟩, flatMap_leftOver hc hvs,
    carries_concat hc hvs⟩
  intro i voice hi
  obtain ⟨v, hv⟩ := exists_engraved hvs hi
  obtain ⟨⟨cells, hcells, hcellsText⟩, -⟩ := engraveVoices_carries hc hvs hi hv
  exact ⟨cells, hcells, by simp [hv, hcellsText]⟩

end Measure

/-! ## A whole staff -/

namespace Staff

/-- What is carried after these measures, engraved one after the other. -/
def carriedAfter (carried : List Carried) (measures : List Measure) :
    Except ConversionError (List Carried) :=
  measures.foldlM (fun carried m => (m.engrave carried).map (·.carried)) carried

/-- The reports on what nothing follows in the voices of a measure. -/
def reports (place : Place) (m : Measure) (number : Nat) : List Skipped :=
  m.voices.flatMap fun voice => voice.gap.unattached.map fun (category, mark) =>
    Skipped.unattached { place with measure := some number } category mark

theorem engraveFrom_eq_ok {place : Place} {number : Nat} {earlier measures : List Measure}
    {carried : List Carried} {out : EngravedMeasures} (hc : Carries earlier carried)
    (h : engraveFrom place number carried measures = .ok out) :
    out.texts.length = measures.length ∧
    (∀ before m after, measures = before ++ m :: after → ∃ carried' em,
      carriedAfter carried before = .ok carried' ∧ Carries (earlier ++ before) carried' ∧
      m.engrave carried' = .ok em ∧ out.texts[before.length]? = some em.text) ∧
    out.skipped = (measures.zipIdx number).flatMap fun (m, k) => reports place m k := by
  induction measures generalizing number earlier carried out with
  | nil =>
    cases h
    exact ⟨rfl, by simp, rfl⟩
  | cons m measures ih =>
    obtain ⟨em, hem, h⟩ := Except.bind_eq_ok.1 h
    obtain ⟨rest, hrest, h⟩ := Except.bind_eq_ok.1 h
    cases h
    obtain ⟨-, hleft, hc'⟩ := Measure.engrave_eq_ok hc hem
    obtain ⟨hlen, hall, hskipped⟩ := ih hc' hrest
    refine ⟨by simp [hlen], fun before m' after heq => ?_, ?_⟩
    · cases before with
      | nil =>
        cases heq
        exact ⟨carried, em, rfl, by simpa using hc, hem, rfl⟩
      | cons b before =>
        simp only [List.cons_append, List.cons.injEq] at heq
        obtain ⟨rfl, htail⟩ := heq
        obtain ⟨carried', em', hrun, hcarries, hem', htext⟩ := hall before m' after htail
        refine ⟨carried', em', ?_, by simpa using hcarries, hem', by simpa using htext⟩
        simpa [carriedAfter, hem, Except.map, bind, Except.bind] using hrun
    · simp [hskipped, hleft, reports, List.map_flatMap]

/-- **Every decoration is written once or reported once**, in the voice and the measure that it
stands in. -/
theorem engraveMeasures_writes_decorations_once {place : Place} {measures : List Measure}
    {out : EngravedMeasures} (h : engraveMeasures place measures = .ok out) :
    out.texts.length = measures.length ∧
    (∀ earlier m later, measures = earlier ++ m :: later → ∃ carried em,
      carriedAfter [] earlier = .ok carried ∧ m.engrave carried = .ok em ∧
      out.texts[earlier.length]? = some em.text ∧
      (∀ c ∈ em.carried, c.pending = .empty) ∧
      ∃ texts : List String, texts.length = m.voices.length ∧
        (∀ (i : Nat) (voice : Voice), m.voices[i]? = some voice → ∃ cells,
          voice.Written (spellingKey earlier m i) cells ∧
          texts[i]? = some (" ".intercalate cells.reduceOption)) ∧
        Measure.withLength m.length (Measure.layOut texts) = .ok em.text) ∧
    out.skipped = (measures.zipIdx 1).flatMap fun (m, number) => reports place m number := by
  obtain ⟨hlen, hall, hskipped⟩ := engraveFrom_eq_ok carries_nil h
  refine ⟨hlen, ?_, hskipped⟩
  intro earlier m later heq
  obtain ⟨carried, em, hrun, hcarries, hem, htext⟩ := hall earlier m later heq
  obtain ⟨hvoices, -, hcarries'⟩ := Measure.engrave_eq_ok hcarries hem
  exact ⟨carried, em, hrun, hem, htext, hcarries'.pending_eq, hvoices⟩

/-- Three marks in front of a chord, a fermata behind it, a second voice, and a second measure that
the fermata does not reach. -/
def strayFermata : List Measure :=
  [⟨false, none,
    [[.dynamic "f", .spanner ⟨"HairPin", true, false, none⟩, .dynamic "p",
      .chord ⟨"quarter", 0, [⟨60, false, []⟩], none, [], []⟩, .fermata "fermataAbove"],
     [.rest ⟨"quarter", none, 0, true⟩]]⟩,
   ⟨false, none, [[.chord ⟨"half", 0, [⟨62, false, []⟩], none, [], []⟩]]⟩]

theorem engraveMeasures_strayFermata :
    engraveMeasures ⟨"P1", some "1", none⟩ strayFermata =
      .ok ⟨["<< \x7b c'4\\p\\f\\< \x7d \\\\ \x7b r4 \x7d >>", "d'2"],
        [⟨"Fermata", ⟨"P1", some "1", some 1⟩,
          "No chord or rest follows '\\fermata' in its voice"⟩]⟩ ∧
    (strayFermata.zipIdx 1).flatMap (fun (m, k) => reports ⟨"P1", some "1", none⟩ m k) =
      [⟨"Fermata", ⟨"P1", some "1", some 1⟩,
        "No chord or rest follows '\\fermata' in its voice"⟩] := by
  have h : engraveMeasures ⟨"P1", some "1", none⟩ strayFermata =
      .ok ⟨["<< \x7b c'4\\p\\f\\< \x7d \\\\ \x7b r4 \x7d >>", "d'2"],
        [⟨"Fermata", ⟨"P1", some "1", some 1⟩,
          "No chord or rest follows '\\fermata' in its voice"⟩]⟩ := rfl
  exact ⟨h, (engraveMeasures_writes_decorations_once h).2.2.symm⟩

end Staff

end Scorebook
