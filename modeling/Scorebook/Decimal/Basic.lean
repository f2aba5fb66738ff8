/-!
# Decimals

A decimal is a whole coefficient times a power of ten. It has a plain text, with as many zeros as
it takes and never an exponent, and it has a nearest double.
-/

namespace Scorebook

structure Decimal where
  coefficient : Nat
  exponent : Int
  deriving DecidableEq, Repr

/-- An integral power of a positive base. -/
def power (base : Nat) (e : Int) : Rat :=
  if 0 ≤ e then Nat.pow base e.toNat else mkRat 1 (Nat.pow base (-e).toNat)

namespace Decimal

def value (d : Decimal) : Rat :=
  d.coefficient * power 10 d.exponent

/-! ## Plain text -/

/-- The last `places` digits stand behind the point; where digits are missing, zeros stand in
front. -/
def pointed (digits : List Char) (places : Nat) : List Char :=
  let padded := List.replicate (places + 1 - digits.length) '0' ++ digits
  padded.take (padded.length - places) ++ '.' :: padded.drop (padded.length - places)

def plainText (d : Decimal) : String :=
  if 0 ≤ d.exponent then toString (d.coefficient * Nat.pow 10 d.exponent.toNat)
  else String.ofList (pointed (toString d.coefficient).toList (-d.exponent).toNat)

/-! ## Nearest double -/

/-- The double nearest to the decimal. Beyond `10^310` that is infinity and below `10^-330` it is
zero, whatever the digits, so the power is never computed there. -/
def toFloat (d : Decimal) : Float :=
  let magnitude : Int := (toString d.coefficient).length + d.exponent
  if d.coefficient = 0 ∨ magnitude < -330 then 0
  else if 310 < magnitude then 1 / 0
  else if 0 ≤ d.exponent then Float.ofScientific d.coefficient false d.exponent.toNat
  else Float.ofScientific d.coefficient true (-d.exponent).toNat

end Decimal

end Scorebook
