import TaggedMarkup.Json
import TaggedMarkup.Json.Numeral
/-!
# Tokens of JSON texts

The tokens of a text are its brackets, commas and colons, its strings and its other scalars. Each
step takes at least one character, which bounds the scan.
-/
namespace TaggedMarkup.Json

inductive Token where
  | openArray
  | closeArray
  | openObject
  | closeObject
  | comma
  | colon
  /-- A string, or `none` if an escape gives half of a surrogate pair. -/
  | string (text : Option String)
  | scalar (value : Json)

namespace Token

def hexValue? (c : Char) : Option Nat :=
  if c.isDigit then some (c.toNat - '0'.toNat)
  else if 'a' ≤ c ∧ c ≤ 'f' then some (c.toNat - 'a'.toNat + 10)
  else if 'A' ≤ c ∧ c ≤ 'F' then some (c.toNat - 'A'.toNat + 10)
  else none

/-- The character that a backslash and a letter stand for. -/
def escaped? : Char → Option Nat
  | '"' => some 0x22
  | '\\' => some 0x5C
  | '/' => some 0x2F
  | 'b' => some 8
  | 'f' => some 12
  | 'n' => some 10
  | 'r' => some 13
  | 't' => some 9
  | _ => none

/-- The code units of a string after its opening quote, and what follows the closing one. Surrogates
can only come from escapes. -/
def stringUnits? : List Char → Option (List Nat × List Char)
  | [] => none
  | '"' :: rest => some ([], rest)
  | '\\' :: 'u' :: a :: b :: c :: d :: rest => do
    let n := 4096 * (← hexValue? a) + 256 * (← hexValue? b) + 16 * (← hexValue? c) + (← hexValue? d)
    let (units, rest) ← stringUnits? rest
    return (n :: units, rest)
  | '\\' :: c :: rest => do
    let n ← escaped? c
    let (units, rest) ← stringUnits? rest
    return (n :: units, rest)
  | c :: rest =>
    if c.toNat < 32 ∨ c = '\\' then none
    else do
      let (units, rest) ← stringUnits? rest
      return (c.toNat :: units, rest)

def isHighSurrogate (n : Nat) : Bool := 0xD800 ≤ n && n ≤ 0xDBFF

def isLowSurrogate (n : Nat) : Bool := 0xDC00 ≤ n && n ≤ 0xDFFF

/-- The characters that code units spell; `none` if a surrogate has no partner. -/
def ofUnits? : List Nat → Option (List Char)
  | [] => some []
  | [n] => if isHighSurrogate n || isLowSurrogate n then none else some [Char.ofNat n]
  | n :: m :: rest =>
    if isHighSurrogate n then
      if isLowSurrogate m then do
        return Char.ofNat (0x10000 + (n - 0xD800) * 0x400 + (m - 0xDC00)) :: (← ofUnits? rest)
      else none
    else if isLowSurrogate n then none
    else do return Char.ofNat n :: (← ofUnits? (m :: rest))

def isSpace (c : Char) : Bool := c == ' ' || c == '\n' || c == '\t' || c == '\r'

/-- A literal name at the start of a text. -/
def name? : List Char → Option (Json × List Char)
  | 'n' :: 'u' :: 'l' :: 'l' :: rest => some (.null, rest)
  | 't' :: 'r' :: 'u' :: 'e' :: rest => some (.bool true, rest)
  | 'f' :: 'a' :: 'l' :: 's' :: 'e' :: rest => some (.bool false, rest)
  | _ => none

/-- The token at the start of a text and what follows it. -/
def next? : List Char → Option (Token × List Char)
  | '[' :: rest => some (openArray, rest)
  | ']' :: rest => some (closeArray, rest)
  | '\x7b' :: rest => some (openObject, rest)
  | '\x7d' :: rest => some (closeObject, rest)
  | ',' :: rest => some (comma, rest)
  | ':' :: rest => some (colon, rest)
  | '"' :: rest => do
    let (units, rest) ← stringUnits? rest
    return (string ((ofUnits? units).map String.ofList), rest)
  | s =>
    match name? s with
    | some (j, rest) => some (scalar j, rest)
    | none => do
      let (numeral, rest) ← Numeral.read? s
      return (scalar ((numeral.value?.map Json.number).getD .unreadable), rest)

theorem length_of_stringUnits? {s rest : List Char} {units : List Nat}
    (h : stringUnits? s = some (units, rest)) : rest.length < s.length := by
  fun_induction stringUnits? s generalizing units rest with
  | case1 => simp at h
  | case2 tail =>
    simp only [Option.some.injEq, Prod.mk.injEq] at h
    simp [← h.2]
  | case3 a b c d tail ih =>
    simp only [Option.bind_eq_bind, Option.bind_eq_some_iff] at h
    obtain ⟨_, _, _, _, _, _, _, _, ⟨u, r⟩, hu, hr⟩ := h
    have := ih hu
    simp only [Option.pure_def, Option.some.injEq, Prod.mk.injEq] at hr
    rw [← hr.2]
    simp only [List.length_cons]
    omega
  | case4 c tail _ ih =>
    simp only [Option.bind_eq_bind, Option.bind_eq_some_iff] at h
    obtain ⟨_, _, ⟨u, r⟩, hu, hr⟩ := h
    have := ih hu
    simp only [Option.pure_def, Option.some.injEq, Prod.mk.injEq] at hr
    rw [← hr.2]
    simp only [List.length_cons]
    omega
  | case5 => simp at h
  | case6 c tail _ _ _ _ ih =>
    simp only [Option.bind_eq_bind, Option.bind_eq_some_iff] at h
    obtain ⟨⟨u, r⟩, hu, hr⟩ := h
    have := ih hu
    simp only [Option.pure_def, Option.some.injEq, Prod.mk.injEq] at hr
    rw [← hr.2]
    simp only [List.length_cons]
    omega

theorem length_of_name? {s rest : List Char} {j : Json} (h : name? s = some (j, rest)) :
    rest.length < s.length := by
  unfold name? at h
  split at h <;> simp only [Option.some.injEq, Prod.mk.injEq, reduceCtorEq] at h <;>
    (rw [← h.2]; simp only [List.length_cons]; omega)

/-- A token takes at least one character. -/
theorem length_of_next? {s rest : List Char} {token : Token} (h : next? s = some (token, rest)) :
    rest.length < s.length := by
  unfold next? at h
  split at h
  · simp_all
  · simp_all
  · simp_all
  · simp_all
  · simp_all
  · simp_all
  · simp only [Option.bind_eq_bind, Option.bind_eq_some_iff] at h
    obtain ⟨⟨u, r⟩, hu, hr⟩ := h
    have := length_of_stringUnits? hu
    simp only [Option.pure_def, Option.some.injEq, Prod.mk.injEq] at hr
    rw [← hr.2]
    simp only [List.length_cons]
    omega
  · split at h
    · next hn =>
      have := length_of_name? hn
      simp only [Option.some.injEq, Prod.mk.injEq] at h
      rw [← h.2]
      exact this
    · simp only [Option.bind_eq_bind, Option.bind_eq_some_iff] at h
      obtain ⟨⟨n, r⟩, hn', hr⟩ := h
      have := Numeral.length_of_read? hn'
      simp only [Option.pure_def, Option.some.injEq, Prod.mk.injEq] at hr
      rw [← hr.2]
      exact this

/-- All tokens of a text. -/
def all? (s : List Char) : Option (List Token) :=
  if s.dropWhile isSpace = [] then some []
  else match _hn : next? (s.dropWhile isSpace) with
    | none => none
    | some (token, rest) => (all? rest).map (token :: ·)
termination_by s.length
decreasing_by
  have h1 := length_of_next? _hn
  have h2 := Numeral.length_dropWhile_le isSpace s
  omega

end Token

end TaggedMarkup.Json
