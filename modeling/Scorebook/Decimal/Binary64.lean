import Scorebook.Decimal.Basic

/-!
# Doubles as binary fractions

A finite double is a sign and a magnitude `m · 2^q`. Reading these off its bits turns every
question about its decimal digits into one about natural numbers. The doubles nearest to it decide
which reals round to it: half a step up and half a step down, where the step down is half as wide
below a power of two. The two ends of that interval belong to it when `m` is even.
-/

namespace Scorebook

structure Binary64 where
  significand : Nat
  exponent : Int
  deriving DecidableEq, Repr

namespace Binary64

/-- The unit of the exponent field, and the leading bit that normal doubles do not store: the
fraction field has 52 bits. -/
def leadingBit : Nat := 0x10000000000000

/-- The sign, which is the highest of the 64 bits. -/
def isNegative (bits : UInt64) : Bool :=
  0x8000000000000000 ≤ bits.toNat

/-- The magnitude of a finite double. -/
def ofBits (bits : UInt64) : Binary64 :=
  let fraction : Nat := bits.toNat % leadingBit
  let biased : Nat := bits.toNat / leadingBit % 0x800
  if biased = 0 then ⟨fraction, -1074⟩ else ⟨leadingBit + fraction, (biased : Int) - 1075⟩

def ofFloat (x : Float) : Binary64 :=
  ofBits x.toBits

def value (x : Binary64) : Rat :=
  x.significand * power 2 x.exponent

/-! ## Rounding interval -/

/-- Whether the double below is only half a step away. -/
def isPowerStart (x : Binary64) : Bool :=
  x.significand = leadingBit ∧ -1074 < x.exponent

def upperEnd (x : Binary64) : Rat :=
  (2 * x.significand + 1) * power 2 (x.exponent - 1)

def lowerEnd (x : Binary64) : Rat :=
  if x.isPowerStart then (4 * x.significand - 1) * power 2 (x.exponent - 2)
  else (2 * x.significand - 1) * power 2 (x.exponent - 1)

/-- Whether a real rounds to this magnitude. -/
def accepts (x : Binary64) (r : Rat) : Bool :=
  if x.significand % 2 = 0 then x.lowerEnd ≤ r ∧ r ≤ x.upperEnd
  else x.lowerEnd < r ∧ r < x.upperEnd

end Binary64

end Scorebook
