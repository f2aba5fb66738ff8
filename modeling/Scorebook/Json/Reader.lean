import Scorebook.Json.Value

/-!
# Reading JSON

The grammar is the strict one: four kinds of blank, no leading zeros, no trailing commas, no
control characters in strings, and nothing after the value. Every reader takes the characters that
lie ahead and gives what it read together with the rest.
-/

namespace Scorebook.Json

def isSpace (c : Char) : Bool :=
  c = ' ' || c = '\t' || c = '\n' || c = '\r'

def skipSpace (cs : List Char) : List Char :=
  cs.dropWhile isSpace

/-! ## Strings -/

/-- What a string is made of: characters that stand for themselves, and 16-bit units of escapes. -/
inductive Piece where
  | plain (c : Char)
  | unit (n : Nat)
  deriving DecidableEq, Repr

/-- The character that a one-letter escape stands for. -/
def escaped? : Char → Option Char
  | '"' => some '"'
  | '\\' => some '\\'
  | '/' => some '/'
  | 'b' => some '\x08'
  | 'f' => some '\x0c'
  | 'n' => some '\n'
  | 'r' => some '\r'
  | 't' => some '\t'
  | _ => none

/-- The pieces up to the closing quote. -/
def readPieces : List Char → Option (List Piece × List Char)
  | [] => none
  | '"' :: cs => some ([], cs)
  | '\\' :: 'u' :: a :: b :: c :: d :: cs => do
    let n ← Text.readHexDigits [a, b, c, d]
    let (pieces, rest) ← readPieces cs
    some (.unit n :: pieces, rest)
  | '\\' :: c :: cs => do
    let e ← escaped? c
    let (pieces, rest) ← readPieces cs
    some (.plain e :: pieces, rest)
  | c :: cs =>
    if c.toNat < 0x20 then none
    else do
      let (pieces, rest) ← readPieces cs
      some (.plain c :: pieces, rest)

def isHighSurrogate (n : Nat) : Bool := 0xD800 ≤ n && n < 0xDC00

def isLowSurrogate (n : Nat) : Bool := 0xDC00 ≤ n && n < 0xE000

/-- The characters of a string: a high surrogate must meet a low one, and no other surrogate may
stand. -/
def joinPieces : List Piece → Option (List Char)
  | [] => some []
  | .plain c :: ps => (joinPieces ps).map (c :: ·)
  | .unit n :: ps =>
    if isLowSurrogate n then none
    else if isHighSurrogate n then
      match ps with
      | .unit m :: ps =>
        if isLowSurrogate m then
          (joinPieces ps).map (Char.ofNat (0x10000 + (n - 0xD800) * 0x400 + (m - 0xDC00)) :: ·)
        else none
      | _ => none
    else (joinPieces ps).map (Char.ofNat n :: ·)

/-- A string behind its opening quote. -/
def readLiteral (cs : List Char) : Option (Literal × List Char) := do
  let (pieces, rest) ← readPieces cs
  some ((joinPieces pieces).map String.ofList, rest)

/-! ## Numbers -/

/-- A non-empty run of digits. -/
def readDigits (cs : List Char) : Option (List Char × List Char) :=
  match cs.takeWhile Char.isDigit with
  | [] => none
  | digits => some (digits, cs.dropWhile Char.isDigit)

/-- The whole part: a zero alone, or digits that do not begin with zero. -/
def readWhole (cs : List Char) : Option (List Char × List Char) := do
  let (digits, rest) ← readDigits cs
  if digits.head? = some '0' ∧ digits.length ≠ 1 then none else some (digits, rest)

def readPlaces : List Char → Option (List Char × List Char)
  | '.' :: cs => readDigits cs
  | cs => some ([], cs)

def readPower : List Char → Option (Int × List Char)
  | c :: cs =>
    if c = 'e' ∨ c = 'E' then
      match cs with
      | '-' :: cs => (readDigits cs).map fun (ds, rest) => (-(Text.digitsValue ds : Int), rest)
      | '+' :: cs => (readDigits cs).map fun (ds, rest) => ((Text.digitsValue ds : Int), rest)
      | cs => (readDigits cs).map fun (ds, rest) => ((Text.digitsValue ds : Int), rest)
    else some (0, c :: cs)
  | [] => some (0, [])

def readNumeral (cs : List Char) : Option (Numeral × List Char) := do
  let (negative, cs) := match cs with
    | '-' :: cs => (true, cs)
    | cs => (false, cs)
  let (whole, cs) ← readWhole cs
  let (places, cs) ← readPlaces cs
  let (exponent, cs) ← readPower cs
  some (⟨negative, whole, places, exponent⟩, cs)

/-! ## Values

Brackets nest, so these readers call each other. Each call takes one unit of the fuel that the
length of the text provides, and each two calls use up a character at least. -/

/-- The literal names. -/
def readName : List Char → Option (Value × List Char)
  | 'n' :: 'u' :: 'l' :: 'l' :: cs => some (.null, cs)
  | 't' :: 'r' :: 'u' :: 'e' :: cs => some (.bool true, cs)
  | 'f' :: 'a' :: 'l' :: 's' :: 'e' :: cs => some (.bool false, cs)
  | _ => none

mutual

def readValue : Nat → List Char → Option (Value × List Char)
  | 0, _ => none
  | fuel + 1, cs =>
    match skipSpace cs with
    | '"' :: cs => (readLiteral cs).map fun (s, rest) => (.string s, rest)
    | '[' :: cs =>
      match skipSpace cs with
      | ']' :: cs => some (.array [], cs)
      | cs => (readItems fuel cs).map fun (items, rest) => (.array items, rest)
    | '{' :: cs =>
      match skipSpace cs with
      | '}' :: cs => some (.object [], cs)
      | cs => (readFields fuel cs).map fun (fields, rest) => (.object fields, rest)
    | c :: cs =>
      if c = '-' ∨ c.isDigit then
        (readNumeral (c :: cs)).map fun (n, rest) => (.number n, rest)
      else readName (c :: cs)
    | [] => none

/-- The items of an array, up to and with its closing bracket. -/
def readItems : Nat → List Char → Option (List Value × List Char)
  | 0, _ => none
  | fuel + 1, cs => do
    let (item, cs) ← readValue fuel cs
    match skipSpace cs with
    | ',' :: cs =>
      let (items, cs) ← readItems fuel cs
      some (item :: items, cs)
    | ']' :: cs => some ([item], cs)
    | _ => none

/-- The fields of an object, up to and with its closing brace. -/
def readFields : Nat → List Char → Option (List (Literal × Value) × List Char)
  | 0, _ => none
  | fuel + 1, cs =>
    match skipSpace cs with
    | '"' :: cs => do
      let (key, cs) ← readLiteral cs
      match skipSpace cs with
      | ':' :: cs =>
        let (value, cs) ← readValue fuel cs
        match skipSpace cs with
        | ',' :: cs =>
          let (fields, cs) ← readFields fuel cs
          some ((key, value) :: fields, cs)
        | '}' :: cs => some ([(key, value)], cs)
        | _ => none
      | _ => none
    | _ => none

end

/-- The value that a whole text holds. -/
def read (s : String) : Option Value :=
  match readValue (2 * s.length + 2) s.toList with
  | some (value, rest) => if skipSpace rest = [] then some value else none
  | none => none

end Scorebook.Json
