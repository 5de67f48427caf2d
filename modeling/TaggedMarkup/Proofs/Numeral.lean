import Mathlib.Algebra.Ring.Nat
import TaggedMarkup.Number
/-!
# Numbers are read from their texts

The text of a number is read as that number again. A decimal is rounded by its value alone, so zeros
may be moved between coefficient and exponent. The shortest decimal of a double reads back because
only such are picked, and the exact one does because nothing is rounded.
-/
namespace TaggedMarkup

namespace Binary64

/-! ## Rounding by value -/

theorem roundDiv_mul_right (num den : Nat) {k : Nat} (hk : 0 < k) :
    roundDiv (num * k) (den * k) = roundDiv num den := by
  have hlow : 2 * (num % den * k) < den * k ↔ 2 * (num % den) < den := by
    rw [← Nat.mul_assoc, Nat.mul_lt_mul_right hk]
  have hhigh : den * k < 2 * (num % den * k) ↔ den < 2 * (num % den) := by
    rw [← Nat.mul_assoc, Nat.mul_lt_mul_right hk]
  unfold roundDiv
  simp only [Nat.mul_div_mul_right num den hk, Nat.mul_mod_mul_right, hlow, hhigh]

theorem roundDiv_mul_self (n : Nat) {den : Nat} (hd : 0 < den) : roundDiv (n * den) den = n := by
  unfold roundDiv
  simp [Nat.mul_div_cancel n hd, hd]

theorem ofRatio?_mul_right (negative : Bool) (num den : Nat) {k : Nat} (hk : 0 < k) :
    ofRatio? negative (num * k) (den * k) = ofRatio? negative num den := by
  have hscale : num * k * Nat.pow 2 1074 / (den * k) = num * Nat.pow 2 1074 / den := by
    rw [Nat.mul_right_comm, Nat.mul_div_mul_right _ _ hk]
  have hround : ∀ s : Nat, roundDiv (num * k * Nat.pow 2 1074) (den * k * Nat.pow 2 s) =
      roundDiv (num * Nat.pow 2 1074) (den * Nat.pow 2 s) := by
    intro s
    rw [Nat.mul_right_comm, Nat.mul_right_comm den, roundDiv_mul_right _ _ hk]
  unfold ofRatio?
  simp only [hscale, hround]

/-- Equal quotients are rounded alike. -/
theorem ofRatio?_congr (negative : Bool) {num den num' den' : Nat} (hd : 0 < den) (hd' : 0 < den')
    (h : num * den' = num' * den) : ofRatio? negative num den = ofRatio? negative num' den' := by
  calc ofRatio? negative num den
      = ofRatio? negative (num * den') (den * den') := (ofRatio?_mul_right _ _ _ hd').symm
    _ = ofRatio? negative (num' * den) (den' * den) := by rw [h, Nat.mul_comm den]
    _ = ofRatio? negative num' den' := ofRatio?_mul_right _ _ _ hd

theorem two_pow_pos (n : Nat) : 0 < Nat.pow 2 n := Nat.two_pow_pos n

theorem ten_pow_pos (n : Nat) : 0 < 10 ^ n := Nat.pow_pos (by decide)

theorem units_pos (x : Binary64) (hx : x.significand ≠ 0) : 0 < x.units :=
  Nat.mul_pos (Nat.pos_of_ne_zero hx) (two_pow_pos x.scale)

theorem units_lt (x : Binary64) {top : Nat} (h : x.scale ≤ top) : x.units < 2 ^ 53 * 2 ^ top :=
  Nat.mul_lt_mul_of_lt_of_le x.significand_lt (Nat.pow_le_pow_right (by decide) h)
    (Nat.two_pow_pos top)

/-- Rounding that meets the parts of a double. The number of bits is a variable so that no step
evaluates the power. -/
theorem ofRatio?_of_parts {x : Binary64} {num den bits : Nat} (hbits : bits = 1074)
    (hscale : (num * Nat.pow 2 bits / den).log2 - 52 = x.scale)
    (hround : roundDiv (num * Nat.pow 2 bits) (den * Nat.pow 2 x.scale) = x.significand) :
    ofRatio? x.negative num den = some x := by
  have hlt := x.significand_lt
  unfold ofRatio?
  rw [← hbits]
  simp only [hscale, hround]
  rw [if_neg (by omega), ofParts?, dif_pos ⟨hlt, x.scale_le, x.normal⟩]

/-- A double is the quotient of its units, without rounding. -/
theorem ofRatio?_units (x : Binary64) (hx : x.significand ≠ 0) {bits : Nat}
    (hbits : bits = 1074) : ofRatio? x.negative x.units (Nat.pow 2 bits) = some x := by
  have hpow := two_pow_pos bits
  have hscale : x.units.log2 - 52 = x.scale := by
    rcases x.normal with hnormal | hzero
    · have hlog : x.units.log2 = 52 + x.scale := by
        refine (Nat.log2_eq_iff (Nat.ne_of_gt (x.units_pos hx))).2 ⟨?_, ?_⟩
        · rw [Nat.pow_add]
          exact Nat.mul_le_mul_right _ hnormal
        · rw [Nat.add_right_comm, Nat.pow_add]
          exact Nat.mul_lt_mul_of_pos_right x.significand_lt (Nat.two_pow_pos x.scale)
      omega
    · have hunits : x.units = x.significand := by
        rw [units, hzero]
        exact Nat.mul_one _
      have hlog : x.significand.log2 < 53 := (Nat.log2_lt hx).2 x.significand_lt
      rw [hunits]
      omega
  have hround : roundDiv (x.units * Nat.pow 2 bits) (Nat.pow 2 bits * Nat.pow 2 x.scale) =
      x.significand := by
    have hunits : x.units * Nat.pow 2 bits =
        x.significand * (Nat.pow 2 bits * Nat.pow 2 x.scale) := by
      rw [units, Nat.mul_assoc, Nat.mul_comm (Nat.pow 2 x.scale)]
    rw [hunits, roundDiv_mul_self _ (Nat.mul_pos hpow (two_pow_pos x.scale))]
  rw [← Nat.mul_div_cancel x.units hpow] at hscale
  exact ofRatio?_of_parts hbits hscale hround

/-! ## Decimals -/

theorem ofDecimal?_eq (negative : Bool) (coefficient : Nat) (exponent : Int) :
    ofDecimal? negative coefficient exponent =
      if coefficient = 0 ∨ (Nat.toDigits 10 coefficient).length + exponent < -330 then
        some (zero negative)
      else if 310 < (Nat.toDigits 10 coefficient).length + exponent then none
      else ofRatio? negative (coefficient * 10 ^ exponent.toNat) (10 ^ (-exponent).toNat) := by
  unfold ofDecimal?
  cases exponent with
  | ofNat k => simp
  | negSucc k => simp [Int.neg_negSucc]

theorem length_toDigits_mul_pow {n : Nat} (hn : 0 < n) (k : Nat) :
    (Nat.toDigits 10 (n * 10 ^ k)).length = (Nat.toDigits 10 n).length + k := by
  induction k with
  | zero => simp
  | succ k ih =>
    have hpos : 0 < n * 10 ^ k := Nat.mul_pos hn (ten_pow_pos k)
    have hsucc : n * 10 ^ (k + 1) = 10 * (n * 10 ^ k) + 0 := by
      rw [Nat.pow_succ, ← Nat.mul_assoc, Nat.mul_comm _ 10, Nat.add_zero]
    rw [hsucc, ← Nat.toDigits_append_toDigits (by decide) hpos (by decide), List.length_append, ih,
      Nat.toDigits_zero]
    rfl

/-- Zeros may stand in the coefficient or in the exponent. -/
theorem ofDecimal?_mul_pow (negative : Bool) (n k : Nat) (e : Int) :
    ofDecimal? negative (n * 10 ^ k) e = ofDecimal? negative n (e + k) := by
  rcases Nat.eq_zero_or_pos n with rfl | hn
  · simp [ofDecimal?_eq]
  have hlength : ((Nat.toDigits 10 (n * 10 ^ k)).length : Int) + e =
      (Nat.toDigits 10 n).length + (e + k) := by
    rw [length_toDigits_mul_pow hn]
    omega
  have hzero : n * 10 ^ k = 0 ↔ n = 0 :=
    iff_of_false (Nat.ne_of_gt (Nat.mul_pos hn (ten_pow_pos k))) (Nat.ne_of_gt hn)
  have hratio : ofRatio? negative (n * 10 ^ k * 10 ^ e.toNat) (10 ^ (-e).toNat) =
      ofRatio? negative (n * 10 ^ (e + k).toNat) (10 ^ (-(e + k)).toNat) := by
    refine ofRatio?_congr negative (ten_pow_pos _) (ten_pow_pos _) ?_
    have hsum : k + e.toNat + (-(e + k)).toNat = (e + k).toNat + (-e).toNat := by omega
    rw [Nat.mul_assoc n, ← Nat.pow_add, Nat.mul_assoc n, ← Nat.pow_add, hsum, Nat.mul_assoc n,
      ← Nat.pow_add]
  rw [ofDecimal?_eq, ofDecimal?_eq, hlength, hratio]
  simp only [hzero]

section

variable {bits : Nat} (hbits : bits = 1074)

include hbits

theorem five_pow_lt {top : Nat} (htop : top = 2045) :
    2 ^ 53 * 2 ^ top * Nat.pow 5 bits < 10 ^ 1384 := by
  subst hbits htop
  decide +kernel

theorem five_pow_ge : 10 ^ 743 ≤ Nat.pow 5 bits := by
  subst hbits
  decide +kernel

theorem ten_pow_eq : 10 ^ bits = Nat.pow 5 bits * Nat.pow 2 bits := by
  subst hbits
  decide +kernel

/-- All digits of a double read back. -/
theorem ofDecimal?_units (x : Binary64) (hx : x.significand ≠ 0) :
    ofDecimal? x.negative (x.units * Nat.pow 5 bits) (-bits) = some x := by
  have hpos := x.units_pos hx
  have hfive : 0 < Nat.pow 5 bits := Nat.pow_pos (by decide)
  obtain ⟨top, htop⟩ : ∃ top, top = 2045 := ⟨_, rfl⟩
  have hunits := Nat.mul_lt_mul_of_pos_right (x.units_lt (htop ▸ x.scale_le)) hfive
  have hlower : 743 < (Nat.toDigits 10 (x.units * Nat.pow 5 bits)).length := by
    refine Nat.lt_of_not_le fun hle => ?_
    have hlt := (Nat.length_toDigits_le_iff (by decide) (by decide)).1 hle
    exact Nat.not_le_of_lt hlt (Nat.le_trans (five_pow_ge hbits) (Nat.le_mul_of_pos_left _ hpos))
  have hupper : (Nat.toDigits 10 (x.units * Nat.pow 5 bits)).length ≤ 1384 :=
    (Nat.length_toDigits_le_iff (by decide) (by decide)).2
      (Nat.lt_trans hunits (five_pow_lt hbits htop))
  have hne : x.units * Nat.pow 5 bits ≠ 0 := Nat.ne_of_gt (Nat.mul_pos hpos hfive)
  rw [ofDecimal?_eq, if_neg (by omega), if_neg (by omega), ← x.ofRatio?_units hx hbits]
  refine ofRatio?_congr _ (ten_pow_pos _) (two_pow_pos bits) ?_
  have hnegative : (-(bits : Int)).toNat = 0 := by omega
  have hpositive : (-(-(bits : Int))).toNat = bits := by omega
  rw [hnegative, hpositive, ten_pow_eq hbits, Nat.pow_zero, Nat.mul_one, Nat.mul_assoc]

end

theorem readsAs_exactDecimal (x : Binary64) (hx : x.significand ≠ 0) :
    x.exactDecimal.readsAs x = true := by
  obtain ⟨bits, hbits⟩ : ∃ bits, bits = 1074 := ⟨_, rfl⟩
  have hexponent : (-1074 : Int) = -bits := by omega
  rw [exactDecimal, hexponent, ← hbits, Decimal.readsAs, ofDecimal?_units hbits x hx,
    beq_self_eq_true]

theorem readsAs_shortest (x : Binary64) (hx : x.significand ≠ 0) : x.shortest.readsAs x = true := by
  unfold shortest
  cases h : (List.range 17).findSome? fun i => x.nearestWith (i + 1) with
  | none => exact x.readsAs_exactDecimal hx
  | some d =>
    obtain ⟨i, -, hi⟩ := List.exists_of_findSome?_eq_some h
    exact readsAs_of_nearestWith hi

/-! ## Texts -/

/-- Characters that are read as the decimal `n * 10 ^ e`, and not as an integer. -/
def Spells (chars : List Char) (n : Nat) (e : Int) : Prop :=
  ∃ whole fraction rest k, splitDigits chars = (whole, fraction, rest) ∧ whole ≠ [] ∧
    (fraction ≠ [] ∨ rest ≠ []) ∧ readExponent? rest = some k ∧
      ∀ negative, ofDecimal? negative (Nat.ofDigitChars 10 (whole ++ fraction) 0)
        (k - fraction.length) = ofDecimal? negative n e

section

variable {whole fraction rest : List Char} (hw : ∀ c ∈ whole, c.isDigit = true)

include hw

theorem splitDigits_point (hf : ∀ c ∈ fraction, c.isDigit = true)
    (hr : ∀ c ∈ rest.head?, c.isDigit = false) :
    splitDigits (whole ++ '.' :: (fraction ++ rest)) = (whole, fraction, rest) := by
  have htake : rest.takeWhile Char.isDigit = [] ∧ rest.dropWhile Char.isDigit = rest := by
    cases rest with
    | nil => exact ⟨rfl, rfl⟩
    | cons c rest =>
      have hc : c.isDigit = false := hr c rfl
      simp [hc]
  unfold splitDigits
  rw [List.dropWhile_append_of_pos hw, List.takeWhile_append_of_pos hw,
    List.dropWhile_cons_of_neg (by decide), List.takeWhile_cons_of_neg (by decide)]
  simp [List.dropWhile_append_of_pos hf, List.takeWhile_append_of_pos hf, htake]

theorem splitDigits_mark {c : Char} (hc : c.isDigit = false) (hp : c ≠ '.') :
    splitDigits (whole ++ c :: rest) = (whole, [], c :: rest) := by
  unfold splitDigits
  rw [List.dropWhile_append_of_pos hw, List.takeWhile_append_of_pos hw,
    List.dropWhile_cons_of_neg (by simp [hc]), List.takeWhile_cons_of_neg (by simp [hc])]
  split
  · next h => exact absurd (List.cons.inj h).1 hp
  · simp

end

theorem readExponent?_mark (place : Int) :
    readExponent? ('e' :: (if place < 0 then '-' else '+') :: Nat.toDigits 10 place.natAbs) =
      some place := by
  have hdigits : (Nat.toDigits 10 place.natAbs).all Char.isDigit = true :=
    List.all_eq_true.2 fun c hc => Nat.isDigit_of_mem_toDigits (by decide) (by decide) hc
  have hshape : ('e' = 'e' ∨ 'e' = 'E') ∧ Nat.toDigits 10 place.natAbs ≠ [] ∧
      (Nat.toDigits 10 place.natAbs).all Char.isDigit = true :=
    ⟨.inl rfl, Nat.toDigits_ne_nil, hdigits⟩
  by_cases hneg : place < 0
  · rw [if_pos hneg]
    refine (if_pos hshape).trans ?_
    have hvalue : -(place.natAbs : Int) = place := by omega
    simp only [if_true, Nat.ofDigitChars_ten_toDigits, hvalue]
  · rw [if_neg hneg]
    refine (if_pos hshape).trans ?_
    have hvalue : (place.natAbs : Int) = place := by omega
    simp only [Bool.false_eq_true, if_false, Nat.ofDigitChars_ten_toDigits, hvalue]

theorem isDigit_of_mem_zeros {n : Nat} {c : Char} (h : c ∈ zeros n) : c.isDigit = true := by
  rw [(List.mem_replicate.1 h).2]
  decide

theorem isDigit_of_mem_zero {c : Char} (h : c ∈ ['0']) : c.isDigit = true :=
  isDigit_of_mem_zeros (n := 1) h

section

variable {digits : List Char} (hd : ∀ c ∈ digits, c.isDigit = true)

include hd

/-- All digits stand before the point, where zeros fill up. -/
theorem spells_whole (hne : digits ≠ []) {e : Nat} (hle : digits.length ≤ e + 1) :
    Spells (positional digits (.ofNat e)) (Nat.ofDigitChars 10 digits 0)
      (Int.ofNat e + 1 - digits.length) := by
  have hwhole : ∀ c ∈ digits ++ zeros (e + 1 - digits.length), c.isDigit = true := by
    intro c hc
    rcases List.mem_append.1 hc with hc | hc
    · exact hd c hc
    · exact isDigit_of_mem_zeros hc
  have hpositional : positional digits (.ofNat e) =
      digits ++ zeros (e + 1 - digits.length) ++ '.' :: (['0'] ++ []) := by
    simp [positional, List.drop_eq_nil_iff.2 hle, List.take_of_length_le hle]
  have hvalue : Nat.ofDigitChars 10 (digits ++ zeros (e + 1 - digits.length) ++ ['0']) 0 =
      Nat.ofDigitChars 10 digits 0 * 10 ^ (e + 1 - digits.length + 1) := by
    have hzero : '0'.toNat - '0'.toNat = 0 := rfl
    rw [Nat.ofDigitChars_append, Nat.ofDigitChars_append, zeros, Nat.ofDigitChars_replicate_zero,
      Nat.ofDigitChars_cons, Nat.ofDigitChars_nil, hzero, Nat.add_zero, Nat.pow_succ,
      Nat.mul_comm _ 10, Nat.mul_comm (Nat.ofDigitChars 10 digits 0), Nat.mul_assoc]
  refine ⟨digits ++ zeros (e + 1 - digits.length), ['0'], [], 0, ?_, by simp [hne], .inl (by simp),
    rfl, fun negative => ?_⟩
  · rw [hpositional]
    exact splitDigits_point hwhole (fun c hc => isDigit_of_mem_zero hc) (by simp)
  · rw [hvalue, ofDecimal?_mul_pow]
    congr 1
    simp
    omega

/-- The point stands among the digits. -/
theorem spells_point {e : Nat} (hlt : e + 1 < digits.length) :
    Spells (positional digits (.ofNat e)) (Nat.ofDigitChars 10 digits 0)
      (Int.ofNat e + 1 - digits.length) := by
  have hdrop : digits.drop (e + 1) ≠ [] := by
    rw [ne_eq, List.drop_eq_nil_iff]
    omega
  have hpositional : positional digits (.ofNat e) =
      digits.take (e + 1) ++ '.' :: (digits.drop (e + 1) ++ []) := by
    obtain ⟨c, rest, hrest⟩ := List.exists_cons_of_ne_nil hdrop
    have hzeros : zeros (e + 1 - min (e + 1) digits.length) = [] := by
      rw [zeros, List.replicate_eq_nil_iff]
      omega
    simp [positional, hrest, hzeros]
  refine ⟨digits.take (e + 1), digits.drop (e + 1), [], 0, ?_, ?_, .inl (by simp [hdrop]), rfl,
    fun negative => ?_⟩
  · rw [hpositional]
    exact splitDigits_point (fun c hc => hd c (List.mem_of_mem_take hc))
      (fun c hc => hd c (List.mem_of_mem_drop hc)) (by simp)
  · have hne : digits ≠ [] := List.ne_nil_of_length_pos (by omega)
    simp [hne]
  · rw [List.take_append_drop]
    congr 1
    simp
    omega

/-- All digits stand behind the point, after zeros. -/
theorem spells_fraction (hne : digits ≠ []) (e : Nat) :
    Spells (positional digits (.negSucc e)) (Nat.ofDigitChars 10 digits 0)
      (Int.negSucc e + 1 - digits.length) := by
  have hlength : 0 < digits.length := List.length_pos_iff.2 hne
  have hpositional : positional digits (.negSucc e) =
      ['0'] ++ '.' :: (zeros e ++ digits ++ []) := by simp [positional]
  have hvalue : Nat.ofDigitChars 10 (['0'] ++ (zeros e ++ digits)) 0 =
      Nat.ofDigitChars 10 digits 0 := by
    rw [List.singleton_append, Nat.ofDigitChars_cons, Nat.ofDigitChars_append, zeros,
      Nat.ofDigitChars_replicate_zero]
    simp
  refine ⟨['0'], zeros e ++ digits, [], 0, ?_, by simp, .inl (by simp [hne]), rfl,
    fun negative => ?_⟩
  · rw [hpositional]
    refine splitDigits_point (fun c hc => isDigit_of_mem_zero hc) (fun c hc => ?_) (by simp)
    rcases List.mem_append.1 hc with hc | hc
    · exact isDigit_of_mem_zeros hc
    · exact hd c hc
  · rw [hvalue]
    congr 1
    simp [zeros]
    omega

/-- Digits written out around the point. -/
theorem spells_positional (hne : digits ≠ []) (place : Int) :
    Spells (positional digits place) (Nat.ofDigitChars 10 digits 0) (place + 1 - digits.length) := by
  cases place with
  | ofNat e =>
    by_cases hle : digits.length ≤ e + 1
    · exact spells_whole hd hne hle
    · exact spells_point hd (Nat.not_le.1 hle)
  | negSucc e => exact spells_fraction hd hne e

/-- Digits with a mark for the exponent. -/
theorem spells_scientific (hne : digits ≠ []) (place : Int) :
    Spells (scientific digits place) (Nat.ofDigitChars 10 digits 0) (place + 1 - digits.length) := by
  obtain ⟨c, fraction, rfl⟩ := List.exists_cons_of_ne_nil hne
  have hc : ∀ d ∈ [c], d.isDigit = true := fun d hm => hd d (by simp_all)
  cases fraction with
  | nil =>
    refine ⟨[c], [], _, place, ?_, by simp, .inr (by simp), readExponent?_mark place,
      fun negative => ?_⟩
    · have hscientific : scientific [c] place = [c] ++ 'e' ::
          (if place < 0 then '-' else '+') :: Nat.toDigits 10 place.natAbs := rfl
      rw [hscientific]
      exact splitDigits_mark hc (by decide) (by decide)
    · congr 1
      simp
  | cons d rest =>
    refine ⟨[c], d :: rest, _, place, ?_, by simp, .inr (by simp), readExponent?_mark place,
      fun negative => ?_⟩
    · have hscientific : scientific (c :: d :: rest) place = [c] ++ '.' :: (d :: rest ++ 'e' ::
          (if place < 0 then '-' else '+') :: Nat.toDigits 10 place.natAbs) := by
        simp [scientific]
      rw [hscientific]
      exact splitDigits_point hc (fun d hm => hd d (List.mem_cons_of_mem _ hm))
        (by simp)
    · have hlength : place + 1 - ((c :: d :: rest).length : Int) = place - (d :: rest).length := by
        rw [List.length_cons]
        omega
      rw [hlength, List.singleton_append]

end

/-! ## Reading -/

/-- Digits end in the zeros that are left out. -/
theorem exists_trailingZeros (digits : List Char) :
    ∃ n, digits = dropTrailingZeros digits ++ zeros n := by
  have hzeros : ∀ c ∈ digits.reverse.takeWhile (· = '0'), c = '0' := fun c hc => by
    simpa using List.all_eq_true.1 List.all_takeWhile c hc
  refine ⟨(digits.reverse.takeWhile (· = '0')).length, ?_⟩
  have hreplicate := List.eq_replicate_of_mem hzeros
  calc digits = digits.reverse.reverse := (List.reverse_reverse digits).symm
    _ = (digits.reverse.takeWhile (· = '0') ++ digits.reverse.dropWhile (· = '0')).reverse := by
      rw [List.takeWhile_append_dropWhile]
    _ = dropTrailingZeros digits ++ (digits.reverse.takeWhile (· = '0')).reverse := by
      rw [List.reverse_append, dropTrailingZeros]
    _ = dropTrailingZeros digits ++ zeros (digits.reverse.takeWhile (· = '0')).length := by
      rw [zeros, hreplicate, List.reverse_replicate, List.length_replicate]

/-- The magnitude of a double is spelled by its text. -/
theorem spells_magnitudeText (x : Binary64) :
    ∃ n e, Spells x.magnitudeText n e ∧ ofDecimal? x.negative n e = some x := by
  by_cases hx : x.significand = 0
  · have hscale : x.scale = 0 := by
      rcases x.normal with h | h
      · omega
      · exact h
    refine ⟨0, 0, ⟨['0'], ['0'], [], 0, ?_, by simp, .inl (by simp), rfl, fun negative => ?_⟩, ?_⟩
    · rw [magnitudeText, if_pos hx]
      decide
    · rw [ofDecimal?_eq, ofDecimal?_eq]
      rfl
    · rw [ofDecimal?_eq, if_pos (.inl rfl)]
      cases x
      simp_all [zero]
  · have hread : ofDecimal? x.negative x.shortest.coefficient x.shortest.exponent = some x :=
      beq_iff_eq.1 (x.readsAs_shortest hx)
    obtain ⟨n, hn⟩ := exists_trailingZeros (Nat.toDigits 10 x.shortest.coefficient)
    have hvalue : x.shortest.coefficient = Nat.ofDigitChars 10
        (dropTrailingZeros (Nat.toDigits 10 x.shortest.coefficient)) 0 * 10 ^ n := by
      have hdigits := congrArg (fun l => Nat.ofDigitChars 10 l 0) hn
      simp only [Nat.ofDigitChars_ten_toDigits, Nat.ofDigitChars_append, zeros,
        Nat.ofDigitChars_replicate_zero] at hdigits
      rw [Nat.mul_comm]
      exact hdigits
    have hlength : (Nat.toDigits 10 x.shortest.coefficient).length =
        (dropTrailingZeros (Nat.toDigits 10 x.shortest.coefficient)).length + n := by
      have hdigits := congrArg List.length hn
      rwa [List.length_append, zeros, List.length_replicate] at hdigits
    have hd : ∀ c ∈ dropTrailingZeros (Nat.toDigits 10 x.shortest.coefficient),
        c.isDigit = true := by
      intro c hc
      have hmem : c ∈ Nat.toDigits 10 x.shortest.coefficient := by
        rw [hn]
        exact List.mem_append_left _ hc
      exact Nat.isDigit_of_mem_toDigits (by decide) (by decide) hmem
    have hne : dropTrailingZeros (Nat.toDigits 10 x.shortest.coefficient) ≠ [] := by
      intro hnil
      rw [hnil, Nat.ofDigitChars_nil, Nat.zero_mul] at hvalue
      rw [hvalue, ofDecimal?_eq, if_pos (.inl rfl)] at hread
      exact hx (congrArg significand (Option.some.inj hread)).symm
    rw [hvalue, ofDecimal?_mul_pow] at hread
    refine ⟨_, _, ?_, hread⟩
    have hexponent : x.shortest.exponent + n = x.shortest.exponent +
        (Nat.toDigits 10 x.shortest.coefficient).length - 1 + 1 -
          (dropTrailingZeros (Nat.toDigits 10 x.shortest.coefficient)).length := by
      omega
    rw [magnitudeText, if_neg hx, hexponent]
    dsimp only
    split
    · exact spells_positional hd hne _
    · exact spells_scientific hd hne _

theorem Spells.exists_cons {chars : List Char} {n : Nat} {e : Int} (h : Spells chars n e) :
    ∃ c rest, chars = c :: rest ∧ c.isDigit = true := by
  obtain ⟨whole, fraction, rest, k, hsplit, hwhole, -⟩ := h
  cases chars with
  | nil => exact absurd (congrArg Prod.fst hsplit).symm hwhole
  | cons c chars =>
    refine ⟨c, chars, rfl, Decidable.not_not.1 fun hc => ?_⟩
    refine hwhole ((congrArg Prod.fst hsplit).symm.trans ?_)
    unfold splitDigits
    rw [List.takeWhile_cons_of_neg hc]
    split <;> rfl

/-- A sign before what is spelled. -/
theorem Spells.splitSign {chars : List Char} {n : Nat} {e : Int} (h : Spells chars n e)
    (negative : Bool) :
    splitSign (if negative then '-' :: chars else chars) = (negative, chars) := by
  cases negative with
  | true => rfl
  | false =>
    obtain ⟨c, rest, rfl, hc⟩ := h.exists_cons
    rw [if_neg Bool.false_ne_true]
    unfold Binary64.splitSign
    split
    · next he => exact absurd hc (by rw [(List.cons.inj he).1]; decide)
    · next he => exact absurd hc (by rw [(List.cons.inj he).1]; decide)
    · rfl

/-- The text of a double is read as that double. -/
theorem read?_text (x : Binary64) : read? x.text = some x := by
  obtain ⟨n, e, hspells, hread⟩ := x.spells_magnitudeText
  have hsign := hspells.splitSign x.negative
  obtain ⟨whole, fraction, rest, k, hsplit, hwhole, -, hexponent, hvalue⟩ := hspells
  have hlist : x.text.toList = if x.negative then '-' :: x.magnitudeText else x.magnitudeText :=
    String.toList_ofList
  unfold read?
  rw [hlist, hsign]
  simp only [hsplit]
  rw [if_neg (by simp [hwhole]), hexponent, Option.bind_some, hvalue, hread]

/-- The text of a double is no integer. -/
theorem not_all_isDigit (x : Binary64) : x.magnitudeText.all Char.isDigit = false := by
  obtain ⟨n, e, ⟨whole, fraction, rest, k, hsplit, -, hmore, -⟩, -⟩ := x.spells_magnitudeText
  rw [← Bool.not_eq_true]
  intro hall
  have hdigits : ∀ c ∈ x.magnitudeText, c.isDigit = true := List.all_eq_true.1 hall
  have hdrop : (x.magnitudeText ++ []).dropWhile Char.isDigit = [] :=
    List.dropWhile_append_of_pos hdigits
  rw [List.append_nil] at hdrop
  unfold splitDigits at hsplit
  rw [hdrop] at hsplit
  obtain ⟨-, hrest⟩ := Prod.mk.inj hsplit
  obtain ⟨hfraction, hrest⟩ := Prod.mk.inj hrest
  rcases hmore with hmore | hmore
  · exact hmore hfraction.symm
  · exact hmore hrest.symm

end Binary64

namespace Number

theorem readInteger?_integerText (n : Int) : readInteger? (integerText n) = some n := by
  have hdigits : (Nat.toDigits 10 n.natAbs).all Char.isDigit = true :=
    List.all_eq_true.2 fun c hc => Nat.isDigit_of_mem_toDigits (by decide) (by decide) hc
  have hsign : Binary64.splitSign (integerText n).toList =
      (decide (n < 0), Nat.toDigits 10 n.natAbs) := by
    rw [integerText, String.toList_ofList]
    by_cases hneg : n < 0
    · rw [if_pos hneg, decide_eq_true hneg]
      rfl
    · rw [if_neg hneg, decide_eq_false hneg]
      obtain ⟨c, rest, hlist⟩ := List.exists_cons_of_ne_nil (Nat.toDigits_ne_nil (n := n.natAbs) (b := 10))
      rw [hlist] at hdigits ⊢
      have hc : c.isDigit = true := (Bool.and_eq_true_iff.1 hdigits).1
      unfold Binary64.splitSign
      split
      · next he => exact absurd hc (by rw [(List.cons.inj he).1]; decide)
      · next he => exact absurd hc (by rw [(List.cons.inj he).1]; decide)
      · rfl
  unfold readInteger?
  rw [hsign]
  simp only [hdigits, Nat.ofDigitChars_ten_toDigits]
  rw [if_pos ⟨Nat.toDigits_ne_nil, trivial⟩]
  by_cases hneg : n < 0
  · rw [decide_eq_true hneg, if_pos rfl]
    congr 1
    omega
  · rw [decide_eq_false hneg, if_neg Bool.false_ne_true]
    congr 1
    omega

theorem readInteger?_text (x : Binary64) : readInteger? x.text = none := by
  obtain ⟨n, e, hspells, -⟩ := x.spells_magnitudeText
  have hlist : x.text.toList = if x.negative then '-' :: x.magnitudeText else x.magnitudeText :=
    String.toList_ofList
  unfold readInteger?
  rw [hlist, hspells.splitSign x.negative]
  simp [x.not_all_isDigit]

/-- The text of a number is read as that number. -/
theorem canonical?_text (n : Number) : canonical? n.text = some n := by
  have hread : read? n.text = some n := by
    cases n with
    | integer n hn =>
      rw [read?, text, readInteger?_integerText, Option.bind_some, ofInt?, dif_pos hn]
      rfl
    | real x =>
      rw [read?, text, readInteger?_text, x.read?_text]
      rfl
  rw [canonical?, hread]
  simp

end Number

end TaggedMarkup
