import Scorebook.Book.Assembly
import Scorebook.Proofs.Outcome
import Scorebook.Proofs.TokenLength

/-!
# Where engraving stops

Engraving stops for one kind of cause only, a length that cannot be written, and it stops at the
first one it comes to. Which one that is can be told without engraving anything: the tokens that
tell the length of a chord or a rest are listed in the order of the score, the length of a measure
after those in its voices, and the first that tells no length is the cause.

What a voice carries and which names are taken have no part in this, so each function is given its
list of tokens once (`FailsOn`), and the lists are put together along the parts, staves, measures
and voices of the score.

Main result: `Score.engrave_failsOn`.
-/

namespace Scorebook

/-! ## Tokens that tell no length -/

/-- The tokens that tell no length. -/
def unreadable (tokens : List String) : List String :=
  tokens.filter fun token => ¬TellsLength token

theorem unreadable_append (tokens more : List String) :
    unreadable (tokens ++ more) = unreadable tokens ++ unreadable more :=
  List.filter_append tokens more

theorem unreadable_flatMap {α : Type} (l : List α) (f : α → List String) :
    unreadable (l.flatMap f) = l.flatMap fun a => unreadable (f a) :=
  List.filter_flatMap

/-- The outcome is a failure for the first of these tokens, and a success if there is none. -/
def FailsOn {α : Type} (x : Except ConversionError α) (tokens : List String) : Prop :=
  x.FailsAtFirst (tokens.map .unknownDuration)

namespace FailsOn

variable {α β : Type} {x : Except ConversionError α} {tokens more : List String}

theorem ok (a : α) : FailsOn (.ok a) [] := rfl

theorem map (h : FailsOn x tokens) (f : α → β) : FailsOn (x.map f) tokens :=
  Except.FailsAtFirst.map h f

theorem bind {f : α → Except ConversionError β} (hx : FailsOn x tokens)
    (hf : ∀ a, x = .ok a → FailsOn (f a) more) : FailsOn (x >>= f) (tokens ++ more) := by
  unfold FailsOn
  rw [List.map_append]
  exact Except.FailsAtFirst.bind hx hf

theorem bind_ok (hx : FailsOn x tokens) (f : α → β) :
    FailsOn (x >>= fun a => .ok (f a)) tokens :=
  Except.FailsAtFirst.bind_ok hx f

end FailsOn

theorem tellsLength_iff {token : String} :
    TellsLength token ↔ ∃ d, Duration.ofToken? token = some d := by
  simp only [TellsLength, Duration.ofToken?_eq, Option.bind_eq_some_iff, tokenLength?_eq_some_iff]
  constructor
  · intro h
    obtain ⟨l, hl⟩ := h
    exact ⟨_, l, hl, if_neg (Rat.not_le.2 hl.bounds.1)⟩
  · intro h
    obtain ⟨d, l, hl, -⟩ := h
    exact ⟨l, hl⟩

theorem Duration.resolve_failsOn (token : String) :
    FailsOn (Duration.resolve token) (unreadable [token]) := by
  unfold Duration.resolve unreadable
  cases hd : Duration.ofToken? token with
  | some d =>
    have htells : TellsLength token := tellsLength_iff.2 ⟨d, hd⟩
    rw [List.filter_cons_of_neg (by simpa using htells)]
    exact FailsOn.ok d
  | none =>
    have htells : ¬TellsLength token := by
      intro h
      obtain ⟨d, hd'⟩ := tellsLength_iff.1 h
      rw [hd] at hd'
      cases hd'
    rw [List.filter_cons_of_pos (by simpa using htells)]
    rfl

theorem dottedDuration_failsOn (token : String) (dots : Nat) :
    FailsOn (dottedDuration token dots) (unreadable [token]) := by
  have heq : dottedDuration token dots =
      (Duration.resolve token).map fun d => d.text ++ dotsText dots := by
    unfold dottedDuration
    cases Duration.resolve token <;> rfl
  rw [heq]
  exact (Duration.resolve_failsOn token).map _

theorem Rest.text_failsOn (rest : Rest) : FailsOn rest.text (unreadable [rest.token]) := by
  have heq : rest.text =
      (dottedDuration rest.token (if rest.isMeasureRest then 0 else rest.dots)).map
        (rest.letter ++ ·) := by
    unfold Rest.text
    dsimp only
    cases dottedDuration rest.token (if rest.isMeasureRest then 0 else rest.dots) <;> rfl
  rw [heq]
  exact (dottedDuration_failsOn _ _).map _

theorem Chord.text_failsOn (key : Option Key) (chord : Chord) :
    FailsOn (chord.text key) (unreadable [chord.durationType]) := by
  have heq : chord.text key = (dottedDuration chord.durationType chord.dots).map
      fun d => Chord.body key d chord.notes ++ chord.marksText := by
    unfold Chord.text
    cases dottedDuration chord.durationType chord.dots <;> rfl
  rw [heq]
  exact (dottedDuration_failsOn _ _).map _

/-! ## Voices and measures -/

/-- The token that tells how long an event sounds. -/
def Event.lengthToken? : Event → Option String
  | .rest r => some r.token
  | .chord c => some c.durationType
  | _ => none

def Voice.lengthTokens (voice : Voice) : List String :=
  voice.filterMap Event.lengthToken?

theorem VoiceState.step_failsOn (fallback : Option Key) (s : VoiceState) (e : Event) :
    FailsOn (step fallback s e) (unreadable e.lengthToken?.toList) := by
  cases e with
  | rest r => exact r.text_failsOn.map _
  | chord c => exact (c.text_failsOn _).map _
  | _ => exact FailsOn.ok _

theorem Voice.engrave_failsOn (fallback : Option Key) (carried : Carried) (voice : Voice) :
    FailsOn (voice.engrave fallback carried) (unreadable voice.lengthTokens) := by
  have hfold : FailsOn (voice.foldlM (VoiceState.step fallback) (.start carried))
      (unreadable voice.lengthTokens) := by
    unfold FailsOn Voice.lengthTokens
    rw [List.filterMap_eq_flatMap_toList, unreadable_flatMap, List.map_flatMap]
    exact Except.failsAtFirst_foldlM (fun s e => VoiceState.step_failsOn fallback s e) _ _
  exact hfold.bind_ok _

namespace Measure

/-- The tokens for which a measure cannot be written: those of its voices, and then its own
length. -/
def faults (m : Measure) : List String :=
  unreadable (m.voices.flatMap Voice.lengthTokens) ++
    ((m.length.filter (· ≤ 0)).map lengthText).toList

theorem engraveLower_failsOn (fallback : Option Key) (carried : List Carried)
    (voices : List Voice) :
    FailsOn (engraveLower fallback carried voices)
      (unreadable (voices.flatMap Voice.lengthTokens)) := by
  induction voices generalizing carried with
  | nil => exact FailsOn.ok _
  | cons voice voices ih =>
    rw [List.flatMap_cons, unreadable_append]
    exact (voice.engrave_failsOn _ _).bind fun _ _ => (ih _).bind_ok _

theorem engraveVoices_failsOn (carried : List Carried) (voices : List Voice) :
    FailsOn (engraveVoices carried voices) (unreadable (voices.flatMap Voice.lengthTokens)) := by
  cases voices with
  | nil => exact FailsOn.ok _
  | cons voice voices =>
    rw [List.flatMap_cons, unreadable_append]
    exact (voice.engrave_failsOn _ _).bind fun _ _ => (engraveLower_failsOn _ _ _).bind_ok _

theorem withLength_failsOn (length : Option Rat) (body : String) :
    FailsOn (withLength length body) ((length.filter (· ≤ 0)).map lengthText).toList := by
  cases length with
  | none => exact FailsOn.ok _
  | some l =>
    refine FailsOn.map ?_ _
    unfold partialDirective Duration.ofLength?
    by_cases h : l ≤ 0
    · simp only [h, if_true, Option.filter_some, decide_true]
      rfl
    · simp only [h, if_false, Option.filter_some, decide_false]
      exact FailsOn.ok _

theorem engrave_failsOn (carried : List Carried) (m : Measure) :
    FailsOn (m.engrave carried) m.faults :=
  (engraveVoices_failsOn _ _).bind fun _ _ => (withLength_failsOn _ _).bind_ok _

end Measure

/-! ## Staves, parts and scores -/

def Staff.faults (staff : Staff) : List String :=
  staff.measures.flatMap Measure.faults

def Part.faults (part : Part) : List String :=
  part.staves.flatMap Staff.faults

theorem Staff.engraveFrom_failsOn (place : Place) (number : Nat) (carried : List Carried)
    (measures : List Measure) :
    FailsOn (engraveFrom place number carried measures) (measures.flatMap Measure.faults) := by
  induction measures generalizing number carried with
  | nil => exact FailsOn.ok _
  | cons m measures ih =>
    rw [List.flatMap_cons]
    exact (m.engrave_failsOn carried).bind fun _ _ => (ih _ _).bind_ok _

theorem Part.engraveStaves_failsOn (id : String) (staves : List Staff) :
    FailsOn (engraveStaves id staves) (staves.flatMap Staff.faults) := by
  induction staves with
  | nil => exact FailsOn.ok _
  | cons staff staves ih =>
    rw [List.flatMap_cons]
    exact (Staff.engraveFrom_failsOn _ 1 [] staff.measures).bind fun _ _ => ih.bind_ok _

namespace Assembly

theorem engravePart_failsOn (a : Assembly) (part : Part) :
    FailsOn (a.engravePart part) part.faults :=
  (Part.engraveStaves_failsOn part.id part.staves).bind_ok _

theorem addParts_failsOn (a : Assembly) (parts : List Part) :
    FailsOn (a.addParts parts) (parts.flatMap Part.faults) := by
  induction parts generalizing a with
  | nil => exact FailsOn.ok _
  | cons part parts ih =>
    rw [List.flatMap_cons]
    exact (a.engravePart_failsOn part).bind fun _ _ => (ih _).bind_ok _

theorem addGroups_failsOn (a : Assembly) (groups : List Group) :
    FailsOn (a.addGroups groups) ((groups.flatMap Group.parts).flatMap Part.faults) := by
  induction groups generalizing a with
  | nil => exact FailsOn.ok _
  | cons group groups ih =>
    rw [List.flatMap_cons, List.flatMap_append]
    exact ((a.addParts_failsOn group.parts).bind_ok _).bind fun _ _ => (ih _).bind_ok _

end Assembly

/-- **Engraving stops at the first token that tells no length**, and nowhere else. -/
theorem Score.engrave_failsOn (score : Score) (settings : Settings) :
    FailsOn (score.engrave settings)
      ((score.groups.flatMap Group.parts).flatMap Part.faults) :=
  (Assembly.empty.addGroups_failsOn score.groups).bind_ok _

end Scorebook
