/-!
# Finite double precision numbers

A finite double is held as sign, significand and scale in the one form that a value of its sign has,
so that equal numbers are equal terms. All arithmetic is exact on naturals; `ofRatio?` rounds a
quotient once, to the nearest double, a tie going to the even significand.
-/
namespace TaggedMarkup

/-- The number `± significand * 2 ^ scale / 2 ^ 1074`. A significand has at most 53 bits, and exactly
53 unless the scale is least. -/
structure Binary64 where
  negative : Bool
  significand : Nat
  scale : Nat
  significand_lt : significand < 9007199254740992
  scale_le : scale ≤ 2045
  normal : 4503599627370496 ≤ significand ∨ scale = 0
  deriving DecidableEq

namespace Binary64

def zero (negative : Bool) : Binary64 := ⟨negative, 0, 0, by decide, by decide, Or.inr rfl⟩

instance : Inhabited Binary64 := ⟨zero false⟩

/-- The magnitude as a multiple of the least positive double, `2 ^ -1074`. -/
def units (x : Binary64) : Nat := x.significand * Nat.pow 2 x.scale

/-- Equality of values: the two zeros are one number. -/
def same (x y : Binary64) : Bool := x == y || (x.significand == 0 && y.significand == 0)

/-- The double with these parts, if they are in range and in normal form. -/
def ofParts? (negative : Bool) (significand scale : Nat) : Option Binary64 :=
  if h : significand < 9007199254740992 ∧ scale ≤ 2045 ∧
      (4503599627370496 ≤ significand ∨ scale = 0) then
    some ⟨negative, significand, scale, h.1, h.2.1, h.2.2⟩
  else none

/-- The quotient rounded to the nearest natural, a tie to the even one. -/
def roundDiv (num den : Nat) : Nat :=
  let q := num / den
  let r := num % den
  if 2 * r < den then q else if den < 2 * r then q + 1 else q + q % 2

/-- The double nearest to `± num / den`; `none` if that lies beyond the largest finite one. -/
def ofRatio? (negative : Bool) (num den : Nat) : Option Binary64 :=
  let scale := (num * Nat.pow 2 1074 / den).log2 - 52
  let significand := roundDiv (num * Nat.pow 2 1074) (den * Nat.pow 2 scale)
  if significand = 9007199254740992 then ofParts? negative 4503599627370496 (scale + 1)
  else ofParts? negative significand scale

/-- The double nearest to `± coefficient * 10 ^ exponent`. Magnitudes far outside the range of
doubles are settled by their number of digits alone. -/
def ofDecimal? (negative : Bool) (coefficient : Nat) (exponent : Int) : Option Binary64 :=
  let magnitude : Int := (Nat.toDigits 10 coefficient).length + exponent
  if coefficient = 0 ∨ magnitude < -330 then some (zero negative)
  else if 310 < magnitude then none
  else match exponent with
    | .ofNat k => ofRatio? negative (coefficient * Nat.pow 10 k) 1
    | .negSucc k => ofRatio? negative coefficient (Nat.pow 10 (k + 1))

/-- The rounded product of the magnitudes, with the sign of the first. -/
def mul? (x y : Binary64) : Option Binary64 :=
  ofRatio? x.negative (x.units * y.units) (Nat.pow 2 2148)

/-- The rounded quotient of the magnitudes, with the sign of the first; the divisor is not zero. -/
def div? (x y : Binary64) : Option Binary64 := ofRatio? x.negative x.units y.units

theorem same_refl (x : Binary64) : x.same x = true := by simp [same]

end Binary64

end TaggedMarkup
