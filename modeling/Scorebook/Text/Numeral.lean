/-!
# Numerals

A numeral is an optional sign and a run of one or more ASCII digits, and nothing else: no blanks,
no separators, no empty run. A minus sign is read for signed numbers only, and a value outside
the range asked for is refused, never cut down.
-/

namespace Scorebook.Text

/-- Value of a digit, ten times the value of those before it being carried along. -/
def pushDigit (n : Nat) (c : Char) : Nat :=
  10 * n + (c.toNat - '0'.toNat)

def digitsValue (cs : List Char) : Nat :=
  cs.foldl pushDigit 0

/-- The value of a non-empty run of digits. -/
def readDigits (cs : List Char) : Option Nat :=
  if cs ≠ [] ∧ cs.all Char.isDigit then some (digitsValue cs) else none

/-! ## Hexadecimal digits -/

def hexDigit? (c : Char) : Option Nat :=
  if c.isDigit then some (c.toNat - '0'.toNat)
  else if 'a' ≤ c ∧ c ≤ 'f' then some (c.toNat - 'a'.toNat + 10)
  else if 'A' ≤ c ∧ c ≤ 'F' then some (c.toNat - 'A'.toNat + 10)
  else none

/-- The value of a non-empty run of hexadecimal digits. -/
def readHexDigits (cs : List Char) : Option Nat :=
  if cs = [] then none else cs.foldlM (fun n c => (hexDigit? c).map (16 * n + ·)) 0

/-! ## Ranges -/

/-- An unsigned numeral below `bound`. -/
def readBelow (bound : Nat) (s : String) : Option Nat :=
  let digits := match s.toList with
    | '+' :: cs => cs
    | cs => cs
  (readDigits digits).filter (· < bound)

def readUInt32 (s : String) : Option Nat :=
  readBelow UInt32.size s

def readUInt64 (s : String) : Option Nat :=
  readBelow UInt64.size s

/-- A signed numeral of 32 bits. -/
def readInt32 (s : String) : Option Int :=
  let value := match s.toList with
    | '-' :: cs => (readDigits cs).map (fun n => -(n : Int))
    | '+' :: cs => (readDigits cs).map Int.ofNat
    | cs => (readDigits cs).map Int.ofNat
  value.filter fun n => -0x80000000 ≤ n ∧ n < 0x80000000

/-! ## Fractions -/

/-- A fraction `n/d`, or `n` alone, of two unsigned 32-bit numerals parted by the first slash. A
zero denominator is refused. -/
def readFraction (s : String) : Option Rat :=
  let numerator := String.ofList (s.toList.takeWhile (· ≠ '/'))
  match s.toList.dropWhile (· ≠ '/') with
  | [] => (readUInt32 numerator).map fun (n : Nat) => mkRat n 1
  | _ :: denominator => do
    let n ← readUInt32 numerator
    let d ← readUInt32 (String.ofList denominator)
    if d = 0 then none else some (mkRat n d)

end Scorebook.Text
