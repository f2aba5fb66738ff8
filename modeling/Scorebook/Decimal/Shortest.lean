import Scorebook.Decimal.Binary64

/-!
# Fewest digits that read back

Of the decimals that round to a given double, the one with the fewest digits stands for it, and of
those the nearest; where two are equally near, the larger. Coarser grids of decimals are tried
first. If a grid has a point in the rounding interval at all, then one of the two neighbours of the
value itself on that grid lies in it, so no other point need be looked at.
-/

namespace Scorebook

namespace Binary64

/-- The point of the grid of multiples of `10^e` that stands for the magnitude, if one does. -/
def onGrid? (x : Binary64) (e : Int) : Option Decimal :=
  let unit := power 10 e
  let below := (x.value / unit).floor.toNat
  let above := below + 1
  match x.accepts (below * unit), x.accepts (above * unit) with
  | false, false => none
  | true, false => some ⟨below, e⟩
  | false, true => some ⟨above, e⟩
  | true, true =>
    if x.value - below * unit < above * unit - x.value then some ⟨below, e⟩ else some ⟨above, e⟩

/-- An exponent of ten at which the magnitude has at most one digit: `0.30103` bounds the decimal
logarithm of two. -/
def leadingExponent (x : Binary64) : Int :=
  (x.exponent + (x.significand.log2 + 1)) * 30103 / 100000 + 1

/-- The shortest decimal of a positive magnitude. Seventeen digits always suffice, and the leading
exponent is at most two too large, so twenty grids are enough. -/
def shortest (x : Binary64) : Decimal :=
  ((List.range 20).findSome? fun (i : Nat) => x.onGrid? (x.leadingExponent - i)).getD ⟨0, 0⟩

end Binary64

end Scorebook
