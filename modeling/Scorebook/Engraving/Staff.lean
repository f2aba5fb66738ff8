import Scorebook.Engraving.Skipped
import Scorebook.Engraving.Voice
import Scorebook.Score.Part

/-!
# Measures and staves

The voices of a measure are engraved in turn and set side by side. What each voice carries on is
kept by the index of the voice, also over measures that lack it. The first voice comes first, so
that the others can fall back on the key it has by the end of the measure.
-/

namespace Scorebook

/-- A measure as it is written, with what its voices and those it lacks carry on. -/
structure EngravedMeasure where
  text : String
  leftOver : List (Category × String)
  carried : List Carried

namespace Measure

/-- Voices from the second on, each with what it carries; a voice met for the first time carries
nothing. -/
def engraveLower (fallback : Option Key) :
    List Carried → List Voice → Except ConversionError (List EngravedVoice)
  | _, [] => .ok []
  | carried, voice :: voices => do
    let v ← voice.engrave fallback (carried.headD .start)
    let vs ← engraveLower fallback carried.tail voices
    return v :: vs

/-- All voices of a measure. -/
def engraveVoices (carried : List Carried) :
    List Voice → Except ConversionError (List EngravedVoice)
  | [] => .ok []
  | voice :: voices => do
    let first ← voice.engrave none (carried.headD .start)
    let lower ← engraveLower first.carried.key carried.tail voices
    return first :: lower

/-- One voice stands bare; several sound together. -/
def layOut : List String → String
  | [] => ""
  | [voice] => voice
  | voices =>
    "<< " ++ " \\\\ ".intercalate (voices.map fun v => "\x7b " ++ v ++ " \x7d") ++ " >>"

/-- The length in front of a measure that states one. -/
def withLength (length : Option Rat) (body : String) : Except ConversionError String :=
  match length with
  | none => .ok body
  | some l => (partialDirective l).map (· ++ " " ++ body)

def engrave (carried : List Carried) (measure : Measure) :
    Except ConversionError EngravedMeasure := do
  let voices ← engraveVoices carried measure.voices
  let text ← withLength measure.length (layOut (voices.map EngravedVoice.text))
  return {
    text
    leftOver := voices.flatMap EngravedVoice.leftOver
    carried := voices.map EngravedVoice.carried ++ carried.drop measure.voices.length }

end Measure

/-! ## Staves -/

/-- The measures of a staff as they are written, one text each, and the reports on what was left
over. -/
structure EngravedMeasures where
  texts : List String
  skipped : List Skipped

namespace Staff

/-- The measures from the given number on. -/
def engraveFrom (place : Place) :
    Nat → List Carried → List Measure → Except ConversionError EngravedMeasures
  | _, _, [] => .ok ⟨[], []⟩
  | number, carried, measure :: measures => do
    let m ← measure.engrave carried
    let ms ← engraveFrom place (number + 1) m.carried measures
    let reports := m.leftOver.map fun (category, mark) =>
      Skipped.unattached { place with measure := some number } category mark
    return ⟨m.text :: ms.texts, reports ++ ms.skipped⟩

/-- The measures of a staff, counted from one. -/
def engraveMeasures (place : Place) (measures : List Measure) :
    Except ConversionError EngravedMeasures :=
  engraveFrom place 1 [] measures

end Staff

end Scorebook
