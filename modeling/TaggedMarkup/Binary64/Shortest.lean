import TaggedMarkup.Binary64
/-!
# The shortest decimal of a double

Of all decimals that read back as a given double, the text of the double shows one with the fewest
digits, and of those the one nearest to its exact value. `shortest` tries one digit, two digits and
so on. On each grid only the two neighbours of the value can be nearest, and a neighbour counts only
if it reads back.
-/
namespace TaggedMarkup.Binary64

/-- The number `coefficient * 10 ^ exponent`. -/
structure Decimal where
  coefficient : Nat
  exponent : Int
  deriving DecidableEq, Inhabited

def Decimal.readsAs (d : Decimal) (x : Binary64) : Bool :=
  ofDecimal? x.negative d.coefficient d.exponent == some x

/-- The magnitude in units of `10 ^ -400`, fraction dropped; no double but zero is below one. -/
def decimalUnits (x : Binary64) : Nat := x.units * Nat.pow 10 400 / Nat.pow 2 1074

/-- The place of the leading digit among the units of `10 ^ -400`. -/
def leadingPlace (x : Binary64) : Nat := (Nat.toDigits 10 x.decimalUnits).length - 1

/-- The one of two decimals that reads back, the preferred one if both do. -/
def pick (x : Binary64) (lower upper : Decimal) (preferLower : Bool) : Option Decimal :=
  match lower.readsAs x, upper.readsAs x with
  | false, false => none
  | true, false => some lower
  | false, true => some upper
  | true, true => some (if preferLower then lower else upper)

/-- The value lies nearer to `floor` than to `floor + 1` on the grid of the step, or in the middle
and `floor` is even. -/
def leansDown (x : Binary64) (floor step : Nat) : Bool :=
  match compare (2 * (x.units * Nat.pow 10 400)) ((2 * floor + 1) * step * Nat.pow 2 1074) with
  | .lt => true
  | .eq => floor % 2 == 0
  | .gt => false

/-- The nearest decimal with `count` digits that reads back. -/
def nearestWith (x : Binary64) (count : Nat) : Option Decimal :=
  let place := x.leadingPlace + 1 - count
  let floor := x.decimalUnits / Nat.pow 10 place
  x.pick ⟨floor, (place : Int) - 400⟩ ⟨floor + 1, (place : Int) - 400⟩
    (x.leansDown floor (Nat.pow 10 place))

/-- All digits of the exact value. -/
def exactDecimal (x : Binary64) : Decimal := ⟨x.units * Nat.pow 5 1074, -1074⟩

/-- Seventeen digits always suffice; the exact value stands behind them all the same. -/
def shortest (x : Binary64) : Decimal :=
  ((List.range 17).findSome? fun i => x.nearestWith (i + 1)).getD x.exactDecimal

theorem readsAs_of_pick {x : Binary64} {lower upper d : Decimal} {preferLower : Bool}
    (h : x.pick lower upper preferLower = some d) : d.readsAs x = true := by
  unfold pick at h
  cases hl : lower.readsAs x <;> cases hu : upper.readsAs x <;> simp only [hl, hu] at h
  · simp at h
  · exact Option.some.inj h ▸ hu
  · exact Option.some.inj h ▸ hl
  · cases preferLower
    · exact Option.some.inj h ▸ hu
    · exact Option.some.inj h ▸ hl

theorem readsAs_of_nearestWith {x : Binary64} {count : Nat} {d : Decimal}
    (h : x.nearestWith count = some d) : d.readsAs x = true := by
  unfold nearestWith at h
  exact readsAs_of_pick h

end TaggedMarkup.Binary64
