import Scorebook.Engraving.Directive
import Scorebook.Engraving.Pending
import Scorebook.Engraving.Sound

/-!
# Voices

One voice of one measure becomes a row of tokens. Reading its events from left to right keeps the
tokens so far and what the voice carries on into the next measure: the last key and the last time
signature met, and the decorations that wait for a sounding event. At the end of the voice those
that still wait are handed back.

Notes are spelled in the key that the voice carries. A document writes key signatures into the
first voice only, so another voice that has met none is spelled in the key of the first.
-/

namespace Scorebook

/-- What a voice carries from measure to measure. -/
structure Carried where
  key : Option Key
  time : Option TimeSignature
  pending : Pending
  deriving DecidableEq, Repr

namespace Carried

def start : Carried := ⟨none, none, .empty⟩

/-- The voice's own key, or else the key to fall back on. -/
def spellingKey (c : Carried) (fallback : Option Key) : Option Key :=
  c.key.orElse fun _ => fallback

end Carried

/-- The state of a voice between two events; tokens are kept from left to right. -/
structure VoiceState where
  tokens : List String
  carried : Carried

namespace VoiceState

def start (carried : Carried) : VoiceState := ⟨[], carried⟩

/-- A directive, or nothing where there is nothing to write. -/
def direct (s : VoiceState) (token : Option String) : VoiceState :=
  { s with tokens := s.tokens ++ token.toList }

/-- A sounding event takes all that waits. -/
def sound (s : VoiceState) (token : String) : VoiceState :=
  let (marks, pending) := s.carried.pending.drain
  { tokens := s.tokens ++ [token ++ marks], carried := { s.carried with pending } }

def decorate (s : VoiceState) (category : Category) (mark : String) : VoiceState :=
  { s with carried.pending := s.carried.pending.push category mark }

def step (fallback : Option Key) (s : VoiceState) : Event → Except ConversionError VoiceState
  | .key key => .ok ({ s with carried.key := some key }.direct (some key.directive))
  | .time time => .ok ({ s with carried.time := some time }.direct (some time.directive))
  | .tempo pace => .ok (s.direct (tempoDirective pace))
  | .clef name => .ok (s.direct (some (clefDirective name)))
  | .barLine subtype => .ok (s.direct (barLineDirective subtype))
  | .dynamic subtype => .ok (s.decorate .dynamic (Mark.dynamic subtype))
  | .spanner spanner => .ok (s.decorate .spanner (Mark.spanner spanner))
  | .technique kind text => .ok (s.decorate .text (Mark.technique kind text))
  | .fermata subtype => .ok (s.decorate .fermata (Mark.fermata subtype))
  | .rest rest => rest.text.map s.sound
  | .chord chord => (chord.text (s.carried.spellingKey fallback)).map s.sound

end VoiceState

/-- A voice of one measure as it is written. -/
structure EngravedVoice where
  text : String
  /-- Decorations that nothing follows. -/
  leftOver : List (Category × String)
  carried : Carried

namespace Voice

/-- Engrave one voice of one measure. -/
def engrave (fallback : Option Key) (carried : Carried) (voice : Voice) :
    Except ConversionError EngravedVoice := do
  let s ← voice.foldlM (VoiceState.step fallback) (.start carried)
  let (leftOver, pending) := s.carried.pending.take
  return ⟨" ".intercalate s.tokens, leftOver, { s.carried with pending }⟩

end Voice

end Scorebook
