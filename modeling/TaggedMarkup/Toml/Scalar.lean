import TaggedMarkup.Binary64.Text
import TaggedMarkup.Toml
/-!
# Numbers, truth values and moments in TOML texts

A scalar without quotes is one run of letters, digits and a few marks, and the whole run must have
one of the forms below. Integers have 64 bits with a sign.
-/
namespace TaggedMarkup.Toml

def isHexDigit (c : Char) : Bool := c.isDigit || ('a' ≤ c && c ≤ 'f') || ('A' ≤ c && c ≤ 'F')

def isOctalDigit (c : Char) : Bool := '0' ≤ c && c ≤ '7'

def isBinaryDigit (c : Char) : Bool := c == '0' || c == '1'

/-- Digits in which single underscores may stand between two of them. -/
def isDigitRun (isDigit : Char → Bool) : List Char → Bool
  | [] => false
  | [c] => isDigit c
  | c :: '_' :: rest => isDigit c && isDigitRun isDigit rest
  | c :: rest => isDigit c && isDigitRun isDigit rest

def dropUnderscores (s : List Char) : List Char := s.filter (· ≠ '_')

def digitValue (c : Char) : Nat :=
  if c.isDigit then c.toNat - '0'.toNat
  else if 'a' ≤ c then c.toNat - 'a'.toNat + 10
  else c.toNat - 'A'.toNat + 10

def digitsValue (base : Nat) (digits : List Char) : Nat :=
  digits.foldl (fun n c => base * n + digitValue c) 0

/-- Decimal digits without a leading zero. -/
def isWholeRun (s : List Char) : Bool :=
  isDigitRun Char.isDigit s && (s.head? != some '0' || s.length == 1)

def ofInteger? (n : Int) : Option Toml :=
  if -9223372036854775808 ≤ n ∧ n < 9223372036854775808 then some (.integer n) else none

def readBase? (base : Nat) (isDigit : Char → Bool) (s : List Char) : Option Toml :=
  if isDigitRun isDigit s then ofInteger? (digitsValue base (dropUnderscores s)) else none

def readInteger? : List Char → Option Toml
  | '0' :: 'x' :: s => readBase? 16 isHexDigit s
  | '0' :: 'o' :: s => readBase? 8 isOctalDigit s
  | '0' :: 'b' :: s => readBase? 2 isBinaryDigit s
  | s =>
    let (negative, digits) := Binary64.splitSign s
    if isWholeRun digits then
      let n : Int := digitsValue 10 (dropUnderscores digits)
      ofInteger? (if negative then -n else n)
    else none

/-- The exponent of a real after its mark. -/
def isExponent (s : List Char) : Bool := isDigitRun Char.isDigit (Binary64.splitSign s).2

def isExponentMark (c : Char) : Bool := c == 'e' || c == 'E'

/-- A whole part with a fraction, an exponent or both. -/
def isRealForm (s : List Char) : Bool :=
  let mantissa := s.takeWhile fun c => !isExponentMark c
  let exponent := s.dropWhile fun c => !isExponentMark c
  let whole := mantissa.takeWhile (· ≠ '.')
  let fraction := mantissa.dropWhile (· ≠ '.')
  isWholeRun whole && (!fraction.isEmpty || !exponent.isEmpty) &&
    (fraction.isEmpty || isDigitRun Char.isDigit (fraction.drop 1)) &&
    (exponent.isEmpty || isExponent (exponent.drop 1))

/-- A real number. One that is too large is refused, unless it is negative. -/
def readReal? (s : List Char) : Option Toml :=
  let (negative, digits) := Binary64.splitSign s
  if digits = ['i', 'n', 'f'] ∨ digits = ['n', 'a', 'n'] then some .real
  else if isRealForm digits then
    if negative ∨ (Binary64.read? (String.ofList (dropUnderscores digits))).isSome then some .real
    else none
  else none

def readBoolean? (s : List Char) : Option Toml :=
  if s = ['t', 'r', 'u', 'e'] then some (.boolean true)
  else if s = ['f', 'a', 'l', 's', 'e'] then some (.boolean false)
  else none

/-- A number of exactly this many digits within bounds, and what follows it. -/
def readFixed? (count low high : Nat) (s : List Char) : Option (Nat × List Char) :=
  let digits := s.take count
  let n := digitsValue 10 digits
  if digits.length = count ∧ digits.all Char.isDigit ∧ low ≤ n ∧ n ≤ high then
    some (n, s.drop count)
  else none

def dropMark? (mark : Char) : List Char → Option (List Char)
  | c :: s => if c = mark then some s else none
  | [] => none

def daysIn (year month : Nat) : Nat :=
  if month = 2 then
    if year % 4 = 0 ∧ (year % 100 ≠ 0 ∨ year % 400 = 0) then 29 else 28
  else if month = 4 ∨ month = 6 ∨ month = 9 ∨ month = 11 then 30
  else 31

/-- What follows a date. -/
def dropDate? (s : List Char) : Option (List Char) := do
  let (year, s) ← readFixed? 4 0 9999 s
  let (month, s) ← readFixed? 2 1 12 (← dropMark? '-' s)
  let (_, s) ← readFixed? 2 1 (daysIn year month) (← dropMark? '-' s)
  return s

/-- What follows a time of day; a minute can have a leap second. -/
def dropTime? (s : List Char) : Option (List Char) := do
  let (_, s) ← readFixed? 2 0 23 s
  let (_, s) ← readFixed? 2 0 59 (← dropMark? ':' s)
  let (_, s) ← readFixed? 2 0 60 (← dropMark? ':' s)
  match s with
  | '.' :: rest =>
    if (rest.takeWhile Char.isDigit).isEmpty then none else some (rest.dropWhile Char.isDigit)
  | rest => some rest

/-- What follows an offset from universal time, or nothing in its place. -/
def dropOffset? : List Char → Option (List Char)
  | 'Z' :: s => some s
  | 'z' :: s => some s
  | '+' :: s => dropClock? s
  | '-' :: s => dropClock? s
  | s => some s
where
  dropClock? (s : List Char) : Option (List Char) := do
    let (_, s) ← readFixed? 2 0 23 s
    let (_, s) ← readFixed? 2 0 59 (← dropMark? ':' s)
    return s

def isTime (s : List Char) : Bool := dropTime? s == some []

def isDate (s : List Char) : Bool := dropDate? s == some []

def isTimeWithOffset (s : List Char) : Bool := ((dropTime? s).bind dropOffset?) == some []

/-- A date, a time, or both with a mark between them. -/
def isMoment (s : List Char) : Bool :=
  isTime s || match dropDate? s with
    | some [] => true
    | some (c :: rest) => (c == 'T' || c == 't') && isTimeWithOffset rest
    | none => false

def isScalarChar (c : Char) : Bool :=
  c.isAlphanum || c == '+' || c == '-' || c == '.' || c == '_' || c == ':'

def readRun? (run : List Char) : Option Toml :=
  (readBoolean? run).or ((readInteger? run).or ((readReal? run).or
    (if isMoment run then some .moment else none)))

/-- A space may separate a date from a time. -/
def startsTime : List Char → Bool
  | ' ' :: a :: b :: ':' :: _ => a.isDigit && b.isDigit
  | _ => false

/-- A scalar without quotes and what follows it. -/
def readScalar? (s : List Char) : Option (Toml × List Char) :=
  let run := s.takeWhile isScalarChar
  let rest := s.dropWhile isScalarChar
  if isDate run ∧ startsTime rest then
    let rest := rest.drop 1
    if isTimeWithOffset (rest.takeWhile isScalarChar) then
      some (.moment, rest.dropWhile isScalarChar)
    else none
  else (readRun? run).map fun v => (v, rest)

end TaggedMarkup.Toml
