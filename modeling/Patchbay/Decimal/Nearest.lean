import Patchbay.Decimal.Shortest

/-!
# Nearest doubles

The double that a decimal is nearest to. Decimals far beyond the greatest double, or far below the
least, are told by the exponent of their first digit, so that no power of ten is worked out for
them.
-/

namespace Patchbay

namespace Decimal

/-- The nearest double. -/
def nearest (d : Decimal) : Double :=
  if d.digits = 0 ∨ d.leading < -400 then 0
  else if 400 < d.leading then Double.infinity
  else if 0 ≤ d.exponent then .ofScientific d.digits false d.exponent.toNat
  else .ofScientific d.digits true (-d.exponent).toNat

end Decimal

end Patchbay
