/-!
# Causes of failure

A conversion either succeeds or fails for one of these causes. Decorative detail that is not
understood is never a cause: it renders as nothing.
-/

namespace Scorebook

inductive ConversionError where
  /-- A duration token names no note value and is no positive fraction. -/
  | unknownDuration (token : String)
  /-- A part refers to a staff that the score does not hold. -/
  | missingStaff (part staff : String)
  /-- The document is not well-formed markup. -/
  | malformedMarkup
  /-- The root of the document has the wrong name. -/
  | unsupportedRoot (name : String)
  /-- The document lacks an element that everything else hangs on. -/
  | missingElement (name : String)
  deriving DecidableEq, Repr

namespace ConversionError

/-- The wording shown to the user. -/
def message : ConversionError → String
  | unknownDuration token => "Unknown duration: " ++ token
  | missingStaff part staff => "Part " ++ part ++ " references missing staff " ++ staff
  | malformedMarkup => "Malformed document: Invalid XML"
  | unsupportedRoot name =>
    "Malformed document: Unsupported document format: Expected <museScore> root, found <" ++
      name ++ ">"
  | missingElement name => "Malformed document: Missing required element: " ++ name

end ConversionError

end Scorebook
