import TaggedMarkup.Proofs.Numeral
/-!
# Texts that are numbers

A text is a number if it is the text of that number, and then of no other. For an integer this is its
plain decimal spelling, so a plus sign, a zero before other digits, a negative zero and an integer out
of range are no integers.
-/
namespace TaggedMarkup.Number

/-- Decimal digits of a natural number, without zeros before them. -/
structure PlainDigits (digits : List Char) (value : Nat) : Prop where
  ne_nil : digits ≠ []
  isDigit : ∀ c ∈ digits, c.isDigit = true
  value_eq : Nat.ofDigitChars 10 digits 0 = value
  zero : digits.head? = some '0' → digits = ['0']

/-- The plain decimal spelling of an integer, with a minus sign if it is negative and no other sign. -/
def IsPlain (text : String) (n : Int) : Prop :=
  ∃ digits, PlainDigits digits n.natAbs ∧ text.toList = if n < 0 then '-' :: digits else digits

variable {text : String} {digits : List Char} {value : Nat} {n : Int}

theorem exists_digitChar {c : Char} (h : c.isDigit = true) : ∃ d < 10, c = d.digitChar := by
  obtain ⟨hlow, hhigh⟩ := Char.isDigit_iff_toNat.1 h
  have hzero : '0'.toNat = 48 := rfl
  have hnine : '9'.toNat = 57 := rfl
  have hlt : c.toNat - 48 < 10 := by omega
  refine ⟨c.toNat - 48, hlt, Char.toNat_inj.1 ?_⟩
  rw [Nat.toNat_digitChar_of_lt_ten hlt]
  omega

/-- The first of two or more digits is no zero. -/
theorem PlainDigits.head?_ne (h : PlainDigits digits value) (hlength : 1 < digits.length) :
    digits.head? ≠ some '0' := by
  intro hhead
  rw [h.zero hhead] at hlength
  exact absurd hlength (by decide)

/-- Digits behind those of a positive number are the last digits of a greater one. -/
theorem toDigits_append_digits (hd : ∀ c ∈ digits, c.isDigit = true) (hpos : 0 < value) :
    Nat.toDigits 10 value ++ digits = Nat.toDigits 10 (Nat.ofDigitChars 10 digits value) := by
  induction digits generalizing value with
  | nil => rw [List.append_nil, Nat.ofDigitChars_nil]
  | cons c rest ih =>
    obtain ⟨d, hlt, rfl⟩ := exists_digitChar (hd c List.mem_cons_self)
    rw [Nat.ofDigitChars_cons_digitChar_of_lt_ten hlt,
      ← ih (fun c hc => hd c (List.mem_cons_of_mem _ hc)) (by omega),
      ← Nat.toDigits_append_toDigits (by decide) hpos hlt, Nat.toDigits_of_lt_base hlt,
      List.append_assoc, List.singleton_append]

/-- A number has no other plain digits than those that it is written with. -/
theorem PlainDigits.eq_toDigits (h : PlainDigits digits value) : digits = Nat.toDigits 10 value := by
  obtain ⟨c, rest, rfl⟩ := List.exists_cons_of_ne_nil h.ne_nil
  obtain ⟨d, hlt, rfl⟩ := exists_digitChar (h.isDigit c List.mem_cons_self)
  have hvalue := h.value_eq
  rcases Nat.eq_zero_or_pos d with rfl | hpos
  · rw [h.zero rfl] at hvalue ⊢
    rw [← hvalue]
    rfl
  · rw [Nat.ofDigitChars_cons_digitChar_of_lt_ten hlt, Nat.mul_zero, Nat.zero_add] at hvalue
    have hrest := toDigits_append_digits (fun c hc => h.isDigit c (List.mem_cons_of_mem _ hc)) hpos
    rwa [hvalue, Nat.toDigits_of_lt_base hlt] at hrest

theorem eq_zero_of_head?_toDigits (h : (Nat.toDigits 10 value).head? = some '0') : value = 0 := by
  induction value using Nat.strongRecOn with
  | ind value ih =>
    by_cases hlt : value < 10
    · rw [Nat.toDigits_of_lt_base hlt] at h
      exact Nat.digitChar_eq_zero.1 (Option.some.inj h)
    · obtain ⟨c, rest, hquotient⟩ :=
        List.exists_cons_of_ne_nil (Nat.toDigits_ne_nil (n := value / 10) (b := 10))
      rw [Nat.toDigits_of_base_le (by decide) (Nat.not_lt.1 hlt), hquotient] at h
      have hzero := ih (value / 10) (by omega) (by rw [hquotient]; exact h)
      omega

theorem plainDigits_toDigits (value : Nat) : PlainDigits (Nat.toDigits 10 value) value where
  ne_nil := Nat.toDigits_ne_nil
  isDigit _ hc := Nat.isDigit_of_mem_toDigits (by decide) (by decide) hc
  value_eq := Nat.ofDigitChars_ten_toDigits
  zero h := by rw [eq_zero_of_head?_toDigits h, Nat.toDigits_zero]

theorem isPlain_iff : IsPlain text n ↔ integerText n = text := by
  rw [integerText, ← String.toList_inj, String.toList_ofList]
  constructor
  · rintro ⟨digits, hdigits, htext⟩
    rw [htext, hdigits.eq_toDigits]
  · intro htext
    exact ⟨_, plainDigits_toDigits n.natAbs, htext.symm⟩

theorem canonical?_eq_some_iff {m : Number} : canonical? text = some m ↔ m.text = text := by
  constructor
  · exact text_of_canonical?
  · rintro rfl
    exact m.canonical?_text

theorem canonical?_integer_iff (h : -9223372036854775808 ≤ n ∧ n < 18446744073709551616) :
    canonical? text = some (.integer n h) ↔ IsPlain text n :=
  canonical?_eq_some_iff.trans isPlain_iff.symm

/-- What spells an integer is not the text of a double. -/
theorem canonical?_eq_none (ht : IsPlain text n)
    (h : ¬ (-9223372036854775808 ≤ n ∧ n < 18446744073709551616)) : canonical? text = none := by
  have hread : readInteger? text = some n := by
    rw [← isPlain_iff.1 ht, readInteger?_integerText]
  rw [Option.eq_none_iff_forall_ne_some]
  intro m hm
  have htext := canonical?_eq_some_iff.1 hm
  cases m with
  | integer k hk =>
    rw [← htext, Number.text, readInteger?_integerText] at hread
    exact h (Option.some.inj hread ▸ hk)
  | real x =>
    rw [← htext, Number.text, readInteger?_text] at hread
    cases hread

/-- The first character of a plain spelling is its minus sign or a digit. -/
theorem IsPlain.plus_ne {rest : List Char} (h : IsPlain text n) : text.toList ≠ '+' :: rest := by
  obtain ⟨digits, hdigits, htext⟩ := h
  rw [htext]
  intro hplus
  split at hplus
  · exact absurd (List.cons.inj hplus).1 (by decide)
  · exact absurd (hdigits.isDigit '+' (hplus ▸ List.mem_cons_self)) (by decide)

theorem IsPlain.zero_ne {c : Char} {rest : List Char} (h : IsPlain text n) :
    text.toList ≠ '0' :: c :: rest := by
  obtain ⟨digits, hdigits, htext⟩ := h
  rw [htext]
  intro hzero
  split at hzero
  · exact absurd (List.cons.inj hzero).1 (by decide)
  · exact hdigits.head?_ne (by simp [hzero]) (by simp [hzero])

theorem IsPlain.minus_zero_ne {rest : List Char} (h : IsPlain text n) :
    text.toList ≠ '-' :: '0' :: rest := by
  obtain ⟨digits, hdigits, htext⟩ := h
  rw [htext]
  intro hzero
  split at hzero
  · next hneg =>
    obtain ⟨-, rfl⟩ := List.cons.inj hzero
    have hvalue := hdigits.value_eq
    rw [hdigits.zero rfl] at hvalue
    have hnone : Nat.ofDigitChars 10 ['0'] 0 = 0 := rfl
    omega
  · exact absurd (hdigits.isDigit '-' (hzero ▸ List.mem_cons_self)) (by decide)

/-- Numbers and the texts that are taken as numbers correspond one to one: the text of a number is that
number, integer or double as it was, and no other text is. A text is an integer if it is the plain
spelling of one in range, and a plain spelling of one out of range is no number at all. -/
theorem canonical_one_to_one :
    (∀ m : Number, canonical? m.text = some m) ∧
    (∀ text m, canonical? text = some m → m.text = text) ∧
    (∀ text n h, canonical? text = some (.integer n h) ↔ IsPlain text n) ∧
    (∀ text n, IsPlain text n → ¬ (-9223372036854775808 ≤ n ∧ n < 18446744073709551616) →
      canonical? text = none) ∧
    ∀ text n h, canonical? text = some (.integer n h) → ∀ c rest, text.toList ≠ '+' :: rest ∧
      text.toList ≠ '0' :: c :: rest ∧ text.toList ≠ '-' :: '0' :: rest := by
  refine ⟨canonical?_text, fun text m => text_of_canonical?,
    fun text n h => canonical?_integer_iff h, fun text n => canonical?_eq_none,
    fun text n h htext c rest => ?_⟩
  have hplain := (canonical?_integer_iff h).1 htext
  exact ⟨hplain.plus_ne, hplain.zero_ne, hplain.minus_zero_ne⟩

theorem canonical_one_to_one_limits :
    canonical? "18446744073709551615" = some (.integer 18446744073709551615 (by decide)) ∧
    canonical? "18446744073709551616" = none ∧
    canonical? "-9223372036854775808" = some (.integer (-9223372036854775808) (by decide)) ∧
    canonical? "-9223372036854775809" = none ∧
    (∀ n h, canonical? "-0" ≠ some (.integer n h)) ∧ ∀ n h, canonical? "007" ≠ some (.integer n h) := by
  obtain ⟨-, -, hinteger, hout, hother⟩ := canonical_one_to_one
  have hplain : ∀ n : Int, IsPlain (integerText n) n := fun n => isPlain_iff.2 rfl
  have hgreatest := hout _ 18446744073709551616 (hplain _) (by decide)
  have hleast := hout _ (-9223372036854775809) (hplain _) (by decide)
  refine ⟨(hinteger _ _ _).2 (hplain _), hgreatest, (hinteger _ _ _).2 (hplain _), hleast,
    fun n h hm => ?_, fun n h hm => ?_⟩
  · exact (hother _ n h hm '0' []).2.2 rfl
  · exact (hother _ n h hm '0' ['7']).2.1 rfl

end TaggedMarkup.Number
