import TaggedMarkup.Binary64.Text
/-!
# Numbers

A number is an integer of 64 bits, signed or unsigned, or a finite double. `canonical?` recognises a
number in a text only if the number is written back as that very text.
-/
namespace TaggedMarkup

/-- The integer 1 and the double 1.0 are different numbers. -/
inductive Number where
  | integer (value : Int) (inRange : -9223372036854775808 ≤ value ∧ value < 18446744073709551616)
  | real (value : Binary64)
  deriving DecidableEq

namespace Number

def ofInt? (n : Int) : Option Number :=
  if h : -9223372036854775808 ≤ n ∧ n < 18446744073709551616 then some (.integer n h) else none

/-- A count or position; beyond the signed range it stays at the greatest signed integer. -/
def ofNat (n : Nat) : Number := .integer (min n 9223372036854775807) (by omega)

instance : Inhabited Number := ⟨ofNat 0⟩

def integerText (n : Int) : String :=
  String.ofList (if n < 0 then '-' :: Nat.toDigits 10 n.natAbs else Nat.toDigits 10 n.natAbs)

def text : Number → String
  | integer n _ => integerText n
  | real x => x.text

/-- Integers are equal to integers only; the two zeros among the doubles are one number. -/
def same : Number → Number → Bool
  | integer m _, integer n _ => m == n
  | real x, real y => x.same y
  | _, _ => false

/-- The integer that an optional sign and digits spell. -/
def readInteger? (text : String) : Option Int :=
  let (negative, digits) := Binary64.splitSign text.toList
  if digits ≠ [] ∧ digits.all Char.isDigit then
    let n := Nat.ofDigitChars 10 digits 0
    some (if negative then -(n : Int) else n)
  else none

/-- An integer if the text spells one in range, else the nearest double. -/
def read? (text : String) : Option Number :=
  ((readInteger? text).bind ofInt?).or ((Binary64.read? text).map real)

/-- The number that is written as exactly this text. -/
def canonical? (text : String) : Option Number := (read? text).filter fun n => n.text = text

theorem text_of_canonical? {t : String} {n : Number} (h : canonical? t = some n) : n.text = t := by
  simpa using (Option.filter_eq_some_iff.mp h).2

theorem same_refl (n : Number) : n.same n = true := by
  cases n <;> simp [same, Binary64.same_refl]

end Number

/-- The truth value that a text spells. -/
def canonicalBool? (text : String) : Option Bool :=
  if text = "true" then some true else if text = "false" then some false else none

def boolText (b : Bool) : String := if b then "true" else "false"

theorem canonicalBool?_eq_some_iff {text : String} {b : Bool} :
    canonicalBool? text = some b ↔ text = boolText b := by
  unfold canonicalBool? boolText
  by_cases h1 : text = "true"
  · cases b <;> simp [h1]
  · by_cases h2 : text = "false" <;> cases b <;> simp [h1, h2]

end TaggedMarkup
