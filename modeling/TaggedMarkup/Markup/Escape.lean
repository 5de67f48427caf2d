/-!
# Escaped characters

Five characters are written as named entities and no others. Reading also takes decimal and
hexadecimal character references. `unescape?_escape` says that writing loses nothing.
-/
namespace TaggedMarkup.Markup

/-- The name under which a character is escaped. -/
def entityName? : Char → Option (List Char)
  | '<' => some ['l', 't']
  | '>' => some ['g', 't']
  | '&' => some ['a', 'm', 'p']
  | '\'' => some ['a', 'p', 'o', 's']
  | '"' => some ['q', 'u', 'o', 't']
  | _ => none

def escapeChar (c : Char) : List Char :=
  match entityName? c with
  | some name => '&' :: name ++ [';']
  | none => [c]

def escape (s : List Char) : List Char := s.flatMap escapeChar

/-- The character with a code point; neither zero nor a surrogate has one. -/
def ofCodePoint? (n : Nat) : Option Char :=
  if n = 0 then none else if n.isValidChar then some (Char.ofNat n) else none

def digitValue? (base : Nat) (c : Char) : Option Nat :=
  let n := if c.isDigit then c.toNat - '0'.toNat
    else if 'a' ≤ c ∧ c ≤ 'f' then c.toNat - 'a'.toNat + 10
    else if 'A' ≤ c ∧ c ≤ 'F' then c.toNat - 'A'.toNat + 10
    else base
  if n < base then some n else none

/-- The number that digits spell; no digits spell none. -/
def digitsValue? (base : Nat) (digits : List Char) : Option Nat :=
  if digits.isEmpty then none
  else digits.foldlM (fun n c => (digitValue? base c).map (base * n + ·)) 0

/-- The character that stands between `&` and `;`. -/
def resolveEntity? : List Char → Option Char
  | ['l', 't'] => some '<'
  | ['g', 't'] => some '>'
  | ['a', 'm', 'p'] => some '&'
  | ['a', 'p', 'o', 's'] => some '\''
  | ['q', 'u', 'o', 't'] => some '"'
  | '#' :: 'x' :: digits => (digitsValue? 16 digits).bind ofCodePoint?
  | '#' :: digits => (digitsValue? 10 digits).bind ofCodePoint?
  | _ => none

/-- Replaces entities. The first argument is the part of a name read so far, in reverse. A name ends
at `;` and cannot hold another `&`; outside a name a `;` is text. -/
def unescapeFrom? : Option (List Char) → List Char → Option (List Char)
  | none, [] => some []
  | some _, [] => none
  | none, c :: rest =>
    if c = '&' then unescapeFrom? (some []) rest else (unescapeFrom? none rest).map (c :: ·)
  | some name, c :: rest =>
    if c = ';' then do
      let d ← resolveEntity? name.reverse
      return d :: (← unescapeFrom? none rest)
    else if c = '&' then none
    else unescapeFrom? (some (c :: name)) rest

def unescape? (s : List Char) : Option (List Char) := unescapeFrom? none s

theorem unescapeFrom?_escapeChar (c : Char) (rest : List Char) :
    unescapeFrom? none (escapeChar c ++ rest) = (unescapeFrom? none rest).map (c :: ·) := by
  unfold escapeChar entityName?
  split
  · next name h =>
    split at h <;> simp only [Option.some.injEq, reduceCtorEq] at h <;> subst h <;>
      simp [unescapeFrom?, resolveEntity?] <;> cases unescapeFrom? none rest <;> rfl
  · next h =>
    have hc : c ≠ '&' := by
      intro hc
      simp [hc] at h
    simp [unescapeFrom?, hc]

theorem unescape?_escape (s : List Char) : unescape? (escape s) = some s := by
  unfold unescape? escape
  induction s with
  | nil => rfl
  | cons c rest ih => simp [unescapeFrom?_escapeChar, ih]

end TaggedMarkup.Markup
