import TaggedMarkup.Binary64.Shortest
/-!
# The text of a double

A double is written with its shortest digits. With the value `d.ddd * 10 ^ e`, exponents from -5 to
15 are written out positionally, always with a point and a digit behind it; all others have the mark
`e`, a sign and no leading zero. `read?` accepts every spelling with digits, an optional point and
an optional exponent.
-/
namespace TaggedMarkup.Binary64

def zeros (n : Nat) : List Char := List.replicate n '0'

def dropTrailingZeros (digits : List Char) : List Char :=
  (digits.reverse.dropWhile (· = '0')).reverse

/-- Digits around the point; `place` is the exponent of the first digit. -/
def positional (digits : List Char) (place : Int) : List Char :=
  match place with
  | .ofNat e =>
    let whole := digits.take (e + 1)
    let fraction := digits.drop (e + 1)
    whole ++ zeros (e + 1 - whole.length) ++ '.' :: (if fraction.isEmpty then ['0'] else fraction)
  | .negSucc e => '0' :: '.' :: zeros e ++ digits

/-- One digit before the point, none behind it if there are no more, and the exponent. -/
def scientific (digits : List Char) (place : Int) : List Char :=
  let fraction := digits.drop 1
  digits.take 1 ++ (if fraction.isEmpty then [] else '.' :: fraction) ++
    'e' :: (if place < 0 then '-' else '+') :: Nat.toDigits 10 place.natAbs

def magnitudeText (x : Binary64) : List Char :=
  if x.significand = 0 then "0.0".toList
  else
    let d := x.shortest
    let digits := Nat.toDigits 10 d.coefficient
    let place := d.exponent + digits.length - 1
    let digits := dropTrailingZeros digits
    if -5 ≤ place ∧ place ≤ 15 then positional digits place else scientific digits place

def text (x : Binary64) : String :=
  String.ofList (if x.negative then '-' :: x.magnitudeText else x.magnitudeText)

/-- An optional sign and what follows it. -/
def splitSign : List Char → Bool × List Char
  | '-' :: rest => (true, rest)
  | '+' :: rest => (false, rest)
  | rest => (false, rest)

/-- The exponent after the digits; nothing stands for zero. -/
def readExponent? : List Char → Option Int
  | [] => some 0
  | c :: rest =>
    let (negative, digits) := splitSign rest
    if (c = 'e' ∨ c = 'E') ∧ digits ≠ [] ∧ digits.all Char.isDigit then
      let n := Nat.ofDigitChars 10 digits 0
      some (if negative then -(n : Int) else n)
    else none

/-- The digits before and behind the point and what follows them. -/
def splitDigits (s : List Char) : List Char × List Char × List Char :=
  let whole := s.takeWhile Char.isDigit
  match s.dropWhile Char.isDigit with
  | '.' :: rest => (whole, rest.takeWhile Char.isDigit, rest.dropWhile Char.isDigit)
  | rest => (whole, [], rest)

/-- The nearest double to a decimal text; `none` also beyond the range of finite doubles. -/
def read? (text : String) : Option Binary64 :=
  let (negative, rest) := splitSign text.toList
  let (whole, fraction, rest) := splitDigits rest
  if whole.isEmpty ∧ fraction.isEmpty then none
  else (readExponent? rest).bind fun e =>
    ofDecimal? negative (Nat.ofDigitChars 10 (whole ++ fraction) 0) (e - fraction.length)

end TaggedMarkup.Binary64
