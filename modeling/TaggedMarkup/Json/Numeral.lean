import TaggedMarkup.Number
/-!
# Numerals in JSON texts

A numeral without fraction and exponent is an integer if it fits into 64 bits. Any other numeral is
a double, computed from at most 64 bits of its digits and one or two steps of scaling, each rounded;
so a numeral with many digits can miss the nearest double by a unit.
-/
namespace TaggedMarkup.Json

/-- A numeral by its parts; `fraction` and `exponent` are `none` where the mark is missing. -/
structure Numeral where
  negative : Bool
  whole : List Char
  fraction : Option (List Char)
  exponent : Option Int

namespace Numeral

/-- One more digit at the end, as long as the result has 64 bits. -/
def appendDigit? (significand : Nat) (digit : Char) : Option Nat :=
  let n := significand * 10 + (digit.toNat - '0'.toNat)
  if n < 18446744073709551616 then some n else none

/-- The digits that fit, and the number of those left out. -/
def takeWhole : List Char → Nat → Nat × Nat
  | [], significand => (significand, 0)
  | d :: rest, significand =>
    match appendDigit? significand d with
    | some n => takeWhole rest n
    | none => (significand, rest.length + 1)

/-- Further digits that fit, and the number of those taken. -/
def takeFraction : List Char → Nat → Nat × Nat
  | [], significand => (significand, 0)
  | d :: rest, significand =>
    match appendDigit? significand d with
    | some n => ((takeFraction rest n).1, (takeFraction rest n).2 + 1)
    | none => (significand, 0)

def powerOfTen? (e : Nat) : Option Binary64 := Binary64.ofRatio? false (Nat.pow 10 e) 1

def divideByPower? (x : Binary64) (e : Nat) : Option Binary64 := do x.div? (← powerOfTen? e)

/-- The significand times a power of ten. One factor reaches `10 ^ 308`; a smaller magnitude takes
two divisions and any beyond that is zero. -/
def scale? (negative : Bool) (significand : Nat) (exponent : Int) : Option Binary64 := do
  let x ← Binary64.ofRatio? negative significand 1
  if significand = 0 ∨ exponent < -616 then return Binary64.zero negative
  match exponent with
  | .ofNat e => if e ≤ 308 then x.mul? (← powerOfTen? e) else none
  | .negSucc e =>
    if e < 308 then divideByPower? x (e + 1)
    else divideByPower? (← divideByPower? x 308) (e - 307)

def value? (n : Numeral) : Option Number :=
  let (whole, left) := takeWhole n.whole 0
  let (significand, taken) := takeFraction (n.fraction.getD []) whole
  let scaled := (scale? n.negative significand (n.exponent.getD 0 + left - taken)).map Number.real
  if n.fraction.isSome ∨ n.exponent.isSome ∨ left ≠ 0 then scaled
  else if n.negative then
    if 0 < whole ∧ whole ≤ 9223372036854775808 then Number.ofInt? (-whole) else scaled
  else Number.ofInt? whole

/-- The digits after a point; `none` if there is a point without digits. -/
def splitFraction? : List Char → Option (Option (List Char) × List Char)
  | '.' :: rest =>
    let digits := rest.takeWhile Char.isDigit
    if digits.isEmpty then none else some (some digits, rest.dropWhile Char.isDigit)
  | rest => some (none, rest)

/-- The exponent after its mark; `none` if there is a mark without digits. -/
def splitExponent? : List Char → Option (Option Int × List Char)
  | c :: rest =>
    if c = 'e' ∨ c = 'E' then
      let signed := Binary64.splitSign rest
      let digits := signed.2.takeWhile Char.isDigit
      let n := Nat.ofDigitChars 10 digits 0
      if digits.isEmpty then none
      else some (some (if signed.1 then -(n : Int) else n), signed.2.dropWhile Char.isDigit)
    else some (none, c :: rest)
  | [] => some (none, [])

/-- A numeral at the start of a text and what follows it. No whole part starts with a zero but the
zero itself. -/
def read? (s : List Char) : Option (Numeral × List Char) := do
  let (negative, s) := match s with
    | '-' :: rest => (true, rest)
    | rest => (false, rest)
  let whole := s.takeWhile Char.isDigit
  if whole.isEmpty ∨ (whole.head? = some '0' ∧ whole.length ≠ 1) then none
  else
    let (fraction, rest) ← splitFraction? (s.dropWhile Char.isDigit)
    let (exponent, rest) ← splitExponent? rest
    return (⟨negative, whole, fraction, exponent⟩, rest)

theorem length_dropWhile_le (p : Char → Bool) (s : List Char) :
    (s.dropWhile p).length ≤ s.length := (List.dropWhile_sublist p).length_le

theorem length_dropWhile_lt {p : Char → Bool} {s : List Char} (h : s.takeWhile p ≠ []) :
    (s.dropWhile p).length < s.length := by
  have happ := congrArg List.length (List.takeWhile_append_dropWhile (p := p) (l := s))
  have hpos := List.length_pos_iff.mpr h
  simp only [List.length_append] at happ
  omega

theorem length_splitSign_le (s : List Char) : (Binary64.splitSign s).2.length ≤ s.length := by
  unfold Binary64.splitSign
  split <;> simp

theorem length_of_splitFraction? {s rest : List Char} {f : Option (List Char)}
    (h : splitFraction? s = some (f, rest)) : rest.length ≤ s.length := by
  unfold splitFraction? at h
  split at h
  · next tail =>
    dsimp only at h
    split at h
    · simp at h
    · have := length_dropWhile_le Char.isDigit tail
      simp only [Option.some.injEq, Prod.mk.injEq] at h
      rw [← h.2]
      simp only [List.length_cons]
      omega
  · simp only [Option.some.injEq, Prod.mk.injEq] at h
    exact h.2 ▸ Nat.le_refl _

theorem length_of_splitExponent? {s rest : List Char} {e : Option Int}
    (h : splitExponent? s = some (e, rest)) : rest.length ≤ s.length := by
  unfold splitExponent? at h
  split at h
  · next c tail =>
    split at h
    · dsimp only at h
      split at h
      · simp at h
      · have h1 := length_splitSign_le tail
        have h2 := length_dropWhile_le Char.isDigit (Binary64.splitSign tail).2
        simp only [Option.some.injEq, Prod.mk.injEq] at h
        rw [← h.2]
        simp only [List.length_cons]
        omega
    · simp only [Option.some.injEq, Prod.mk.injEq] at h
      exact h.2 ▸ Nat.le_refl _
  · simp only [Option.some.injEq, Prod.mk.injEq] at h
    exact h.2 ▸ Nat.le_refl _

/-- A numeral takes at least one character. -/
theorem length_of_read? {s rest : List Char} {n : Numeral} (h : read? s = some (n, rest)) :
    rest.length < s.length := by
  unfold read? at h
  generalize hs : (match s with
    | '-' :: rest => (true, rest)
    | rest => (false, rest)) = signed at h
  have hle : signed.2.length ≤ s.length := by
    rw [← hs]
    split <;> simp
  dsimp only at h
  split at h
  · simp at h
  · next hw =>
    have hne : signed.2.takeWhile Char.isDigit ≠ [] := by
      intro h0
      simp [h0] at hw
    have hlt := length_dropWhile_lt hne
    simp only [Option.bind_eq_bind, Option.bind_eq_some_iff] at h
    obtain ⟨⟨f, r1⟩, hf, ⟨e, r2⟩, he, hr⟩ := h
    have h1 := length_of_splitFraction? hf
    have h2 := length_of_splitExponent? he
    dsimp only at h1 h2
    simp only [Option.pure_def, Option.some.injEq, Prod.mk.injEq] at hr
    rw [← hr.2]
    omega

end Numeral

end TaggedMarkup.Json
