import FormulaLang.Proofs.Rounding

/-!
# FormulaLang.Proofs.Nearest

Doubles as exact numbers, and the double nearest to a natural number.

* `denoted`: what a bit pattern denotes, read off its sign, exponent and fraction. For a finite
  double that is its number of units with its sign (`number_eq`).
* `isNearest_ofNat`: a natural number becomes the double nearest to it, ties going to the even one.
  No other double without a sign is that (`Converts.unique`).
* `number_ofNat`: up to `2 ^ 53` that double is the number itself.
-/

namespace FormulaLang
namespace Binary64

/-! ## What bits denote -/

def signBit (b : UInt64) : Bool := 2 ^ 63 ≤ b.toNat

def exponentField (b : UInt64) : Nat := b.toNat / 2 ^ 52 % 2 ^ 11

def fractionField (b : UInt64) : Nat := b.toNat % 2 ^ 52

/-- The number of a pattern whose exponent is not all ones. The fraction stands behind a one, and
behind a zero where the exponent is zero. -/
def rational (b : UInt64) : ℚ :=
  (if signBit b then -1 else 1) *
    if exponentField b = 0 then fractionField b / (2 : ℚ) ^ 52 * (2 : ℚ) ^ (-1022 : ℤ)
    else (1 + fractionField b / (2 : ℚ) ^ 52) * (2 : ℚ) ^ ((exponentField b : ℤ) - 1023)

/-- What a pattern denotes: a number, an infinity, or nothing if it is not a number. -/
def denoted (b : UInt64) : Option (WithBotTop ℚ) :=
  if exponentField b = 2047 then
    if fractionField b = 0 then some (if signBit b then ⊥ else ⊤) else none
  else some (rational b : WithBotTop ℚ)

/-- The number of a finite double. -/
def number (x : Float) : ℚ := rational x.toBits

def wordNumber (w : Nat) : ℚ := units w / (one : Nat)

section Fields

variable {x : Float}

theorem magnitude_lt (x : Float) : magnitude x < 2 ^ 63 := Nat.mod_lt _ (by decide)

theorem exponentField_toBits (x : Float) : exponentField x.toBits = magnitude x / 2 ^ 52 := by
  rw [exponentField, magnitude]
  omega

theorem fractionField_toBits (x : Float) : fractionField x.toBits = magnitude x % 2 ^ 52 := by
  rw [fractionField, magnitude]
  omega

theorem two_zpow_exponent (k : Nat) :
    (2 : ℚ) ^ (((k + 1 : Nat) : ℤ) - 1023) = (2 : ℚ) ^ k * (2 : ℚ) ^ 52 / (one : Nat) := by
  have hone : ((one : Nat) : ℚ) = (2 : ℚ) ^ 1022 * (2 : ℚ) ^ 52 := by
    -- with a variable exponent, the power is not evaluated
    obtain ⟨n, hn⟩ : ∃ n : Nat, 1074 = n + 52 := ⟨1022, rfl⟩
    rw [one, hn, Nat.pow_add, Nat.cast_mul, Nat.cast_pow, Nat.cast_pow, Nat.cast_ofNat]
    obtain rfl : n = 1022 := by omega
    rfl
  have hexponent : ((k + 1 : Nat) : ℤ) - 1023 = (k : ℤ) - (1022 : Nat) := by
    push_cast
    ring
  have hpow : (2 : ℚ) ^ 1022 ≠ 0 := pow_ne_zero _ two_ne_zero
  rw [hone, hexponent, zpow_sub₀ two_ne_zero, zpow_natCast, zpow_natCast,
    mul_div_mul_right _ _ (pow_ne_zero _ two_ne_zero)]

theorem number_eq (x : Float) :
    number x = (if isNegative x then -1 else 1) * wordNumber (magnitude x) := by
  rw [number, rational, exponentField_toBits, fractionField_toBits, wordNumber]
  show (if isNegative x then (-1 : ℚ) else 1) * _ = _
  congr 1
  obtain ⟨w, hw⟩ : ∃ w, w = magnitude x := ⟨_, rfl⟩
  rw [← hw]
  split
  · rename_i hzero
    have hsmall : w < 2 ^ 52 := by omega
    have htwo := two_zpow_exponent 0
    rw [pow_zero, one_mul] at htwo
    rw [units, if_pos (by omega), Nat.mod_eq_of_lt hsmall,
      show (-1022 : ℤ) = ((0 + 1 : Nat) : ℤ) - 1023 by norm_num, htwo]
    ring
  · rename_i hnormal
    obtain ⟨k, hk⟩ : ∃ k, w / 2 ^ 52 = k + 1 := Nat.exists_eq_succ_of_ne_zero hnormal
    rw [units_of_normal (by omega), hk, two_zpow_exponent k, Nat.add_sub_cancel]
    push_cast
    ring

theorem number_of_unsigned (h : isNegative x = false) : number x = wordNumber (magnitude x) := by
  rw [number_eq, h, if_neg Bool.false_ne_true, one_mul]

theorem number_ofWord {w : Nat} (h : w ≤ infinityWord) :
    number (ofWord false w) = wordNumber w := by
  rw [number_of_unsigned (isNegative_ofWord false h), magnitude_ofWord false h]

theorem exponentField_eq_iff : exponentField x.toBits = 2047 ↔ infinityWord ≤ magnitude x := by
  have hlt := magnitude_lt x
  rw [exponentField_toBits, infinityWord]
  omega

theorem denoted_of_isFinite (h : x.isFinite = true) :
    denoted x.toBits = some (number x : WithBotTop ℚ) := by
  have hlt := isFinite_iff.mp h
  rw [denoted, if_neg fun hones => absurd (exponentField_eq_iff.mp hones) (by omega), number]

/-- Of all doubles exactly those that are not numbers denote nothing. -/
theorem denoted_eq_none_iff : denoted x.toBits = none ↔ x.isNaN = true := by
  have hlt := magnitude_lt x
  rw [isNaN_iff, denoted]
  split
  · rename_i hones
    have hge := exponentField_eq_iff.mp hones
    rw [fractionField_toBits]
    rw [infinityWord] at hge ⊢
    split
    · rename_i hzero
      simp only [reduceCtorEq, false_iff]
      omega
    · rename_i hnonzero
      simp only [true_iff]
      omega
  · rename_i hfinite
    have hnan : ¬infinityWord < magnitude x := fun hge => hfinite (exponentField_eq_iff.mpr hge.le)
    simp only [reduceCtorEq, false_iff]
    exact hnan

/-- A pattern that denotes something is that of its double. -/
theorem toBits_ofBits_of_denoted {b : UInt64} {v : WithBotTop ℚ} (h : denoted b = some v) :
    (Float.ofBits b).toBits = b := by
  apply toBits_ofBits
  refine ⟨fun hexponent hmantissa => absurd (unpackMantissa_eq_zero_iff.mpr ?_) hmantissa⟩
  rw [unpackExponent_eq_ones_iff, infinityWord] at hexponent
  have hlt := b.toNat_lt
  have hones : exponentField b = 2047 := by
    rw [exponentField]
    omega
  rw [denoted, if_pos hones] at h
  split at h
  · rename_i hzero
    exact hzero
  · cases h

theorem isNaN_ofBits {b : UInt64} (h : denoted b = none) : (Float.ofBits b).isNaN = true := by
  rw [denoted] at h
  split at h
  · rename_i hones
    split at h
    · cases h
    · rename_i hfraction
      rw [exponentField] at hones
      have hexponent : infinityWord ≤ b.toNat % 2 ^ 63 := by
        rw [infinityWord]
        omega
      have hunpack : Float.Model.UnpackedFloat.unpack Float.Model.Format.binary64 b.toBitVec =
          .notANumber := by
        rw [Float.Model.UnpackedFloat.unpack]
        simp only
        rw [if_pos (unpackExponent_eq_ones_iff.mpr hexponent),
          if_neg fun hzero => hfraction (unpackMantissa_eq_zero_iff.mp hzero)]
      have hbits : (Float.ofBits b).toBits =
          .ofBitVec (Float.Model.UnpackedFloat.packedNaN Float.Model.Format.binary64) := by
        show UInt64.ofBitVec (Float.Model.UnpackedFloat.pack Float.Model.Format.binary64
          (Float.Model.UnpackedFloat.unpack Float.Model.Format.binary64 b.toBitVec)) = _
        rw [hunpack]
        rfl
      rw [isNaN_iff, magnitude, hbits]
      decide
  · cases h

end Fields

/-! ## Natural numbers -/

/-- No finite double is nearer to `q` than `x`, and if the number of another is as near, the fraction
of `x` is even. -/
structure IsNearest (q : ℚ) (x : Float) : Prop where
  finite : x.isFinite = true
  nearest : ∀ y : Float, y.isFinite = true → |number x - q| ≤ |number y - q|
  even : ∀ y : Float, y.isFinite = true → number y ≠ number x → |number y - q| = |number x - q| →
    fractionField x.toBits % 2 = 0

/-- The double of a natural number: the nearest one, without a sign. -/
structure Converts (n : Nat) (x : Float) : Prop where
  nearest : IsNearest n x
  unsigned : isNegative x = false

theorem IsNearest.mono {p q : ℚ} {x y : Float} (hx : IsNearest p x) (hy : IsNearest q y)
    (h : p < q) : number x ≤ number y := by
  by_contra hlt
  have hfirst := hx.nearest y hy.finite
  have hsecond := hy.nearest x hx.finite
  rcases abs_cases (number x - p) with ⟨hxp, _⟩ | ⟨hxp, _⟩ <;>
    rcases abs_cases (number y - p) with ⟨hyp, _⟩ | ⟨hyp, _⟩ <;>
    rcases abs_cases (number x - q) with ⟨hxq, _⟩ | ⟨hxq, _⟩ <;>
    rcases abs_cases (number y - q) with ⟨hyq, _⟩ | ⟨hyq, _⟩ <;>
    linarith

section Naturals

variable {n : Nat}

theorem one_pos : 0 < one := by
  obtain ⟨k, hk⟩ : ∃ k, 1074 = k := ⟨_, rfl⟩
  rw [one, hk]
  exact Nat.two_pow_pos k

theorem log2_mul_one_lt {k : Nat} (hzero : n ≠ 0) (hn : n < 2 ^ k) :
    (n * one).log2 < k + 1074 := by
  have hone := one_pos
  obtain ⟨e, he⟩ : ∃ e, 1074 = e := ⟨_, rfl⟩
  rw [one, he] at hone ⊢
  rw [Nat.log2_lt (Nat.mul_ne_zero hzero hone.ne'), Nat.pow_add]
  exact Nat.mul_lt_mul_of_pos_right hn hone

theorem nearestWord_lt (hn : n < 2 ^ 64) : nearestWord n 1 < infinityWord := by
  apply roundUnits_lt Nat.one_pos
  rw [Nat.div_one]
  by_cases hzero : n = 0
  · subst hzero
    rw [Nat.zero_mul]
    decide
  · exact (log2_mul_one_lt hzero hn).trans (by decide)

theorem isFinite_ofNat (hn : n < 2 ^ 64) : (ofNat n).isFinite = true := by
  have hlt := nearestWord_lt hn
  rw [isFinite_iff, ofNat, magnitude_ofWord false hlt.le]
  exact hlt

theorem isNegative_ofNat (hn : n < 2 ^ 64) : isNegative (ofNat n) = false :=
  isNegative_ofWord false (nearestWord_lt hn).le

theorem number_ofNat_eq (hn : n < 2 ^ 64) : number (ofNat n) = wordNumber (nearestWord n 1) :=
  number_ofWord (nearestWord_lt hn).le

theorem cast_one_pos : (0 : ℚ) < (one : Nat) := Nat.cast_pos.mpr one_pos

theorem wordNumber_nonneg (w : Nat) : 0 ≤ wordNumber w :=
  div_nonneg (Nat.cast_nonneg _) cast_one_pos.le

theorem wordNumber_zero : wordNumber 0 = 0 := by
  have hzero : units 0 = 0 := rfl
  rw [wordNumber, hzero, Nat.cast_zero, zero_div]

theorem distance_eq (w n : Nat) :
    |wordNumber w - n| =
      (|(units w * (1 : Nat) : ℤ) - (n * one : Nat)| : ℤ) / ((one : Nat) : ℚ) := by
  have hone := cast_one_pos
  rw [wordNumber, eq_div_iff hone.ne', ← abs_of_pos hone, ← abs_mul, abs_of_pos hone, sub_mul,
    div_mul_cancel₀ _ hone.ne']
  push_cast
  rw [mul_one]

theorem nearestWord_nearest (hn : n < 2 ^ 64) (w : Nat) :
    |wordNumber (nearestWord n 1) - n| ≤ |wordNumber w - n| ∧
      (wordNumber w ≠ wordNumber (nearestWord n 1) →
        |wordNumber w - n| = |wordNumber (nearestWord n 1) - n| → nearestWord n 1 % 2 = 0) := by
  have hone := cast_one_pos
  obtain ⟨hle, htie⟩ := roundUnits_nearest Nat.one_pos (nearestWord_lt hn) w
  rw [distance_eq, distance_eq]
  refine ⟨(div_le_div_iff_of_pos_right hone).mpr (Int.cast_le.mpr hle), fun hne heq => ?_⟩
  refine htie (fun hunits => hne ?_) (Int.cast_inj.mp ((div_left_inj' hone.ne').mp heq))
  rw [wordNumber, hunits, wordNumber, nearestWord]

/-- A negative double is no nearer to a natural number than its magnitude is. -/
theorem wordNumber_nearer (y : Float) (n : Nat) :
    |wordNumber (magnitude y) - n| ≤ |number y - n| ∧
      (number y ≠ wordNumber (magnitude y) → |number y - n| = wordNumber (magnitude y) + n) := by
  have hn : (0 : ℚ) ≤ n := Nat.cast_nonneg n
  have hw := wordNumber_nonneg (magnitude y)
  rw [number_eq y]
  cases isNegative y with
  | false =>
    rw [if_neg Bool.false_ne_true, one_mul]
    exact ⟨le_refl _, fun h => absurd rfl h⟩
  | true =>
    rw [if_pos rfl, neg_one_mul]
    have habs : |-wordNumber (magnitude y) - n| = wordNumber (magnitude y) + n := by
      rw [abs_of_nonpos (by linarith)]
      ring
    rw [habs]
    refine ⟨?_, fun _ => rfl⟩
    rw [abs_le]
    constructor <;> linarith

theorem wordNumber_strictMono : StrictMono wordNumber := fun _ _ h =>
  (div_lt_div_iff_of_pos_right cast_one_pos).mpr (Nat.cast_lt.mpr (units_strictMono h))

/-- What lies between two numbers that are as far from `q` is nearer to it. -/
theorem abs_sub_lt_of_between {x y z q : ℚ} (hlow : x < z) (hhigh : z < y)
    (h : |x - q| = |y - q|) : |z - q| < |x - q| := by
  rcases abs_cases (x - q) with ⟨hx, _⟩ | ⟨hx, _⟩ <;>
    rcases abs_cases (y - q) with ⟨hy, _⟩ | ⟨hy, _⟩ <;>
    rcases abs_cases (z - q) with ⟨hz, _⟩ | ⟨hz, _⟩ <;>
    linarith

/-- There is no greater double of a number. It would be as near, so no double could lie between the
two, and one of the two fractions would be odd. -/
theorem Converts.magnitude_le {x y : Float} (hx : Converts n x) (hy : Converts n y) :
    magnitude y ≤ magnitude x := by
  by_contra hlt
  have hlt := Nat.lt_of_not_le hlt
  have hless := wordNumber_strictMono hlt
  rw [← number_of_unsigned hx.unsigned, ← number_of_unsigned hy.unsigned] at hless
  have hequal : |number x - n| = |number y - n| :=
    le_antisymm (hx.nearest.nearest y hy.nearest.finite) (hy.nearest.nearest x hx.nearest.finite)
  by_cases hnext : magnitude y = magnitude x + 1
  · have hxeven := hx.nearest.even y hy.nearest.finite hless.ne' hequal.symm
    have hyeven := hy.nearest.even x hx.nearest.finite hless.ne hequal
    rw [fractionField_toBits] at hxeven hyeven
    omega
  · have hfinite := isFinite_iff.mp hy.nearest.finite
    obtain ⟨w, hw⟩ : ∃ w, w = magnitude x + 1 := ⟨_, rfl⟩
    have hmagnitude : magnitude (ofWord false w) = w := magnitude_ofWord false (by omega)
    have hlow : number x < wordNumber w := by
      rw [number_of_unsigned hx.unsigned]
      exact wordNumber_strictMono (by omega)
    have hhigh : wordNumber w < number y := by
      rw [number_of_unsigned hy.unsigned]
      exact wordNumber_strictMono (by omega)
    have hnearest := hx.nearest.nearest (ofWord false w) (isFinite_iff.mpr (by omega))
    rw [number_ofWord (by omega)] at hnearest
    exact absurd hnearest (not_le.mpr (abs_sub_lt_of_between hlow hhigh hequal))

theorem Converts.unique {x y : Float} (hx : Converts n x) (hy : Converts n y) : x = y := by
  have hmagnitude := le_antisymm (hy.magnitude_le hx) (hx.magnitude_le hy)
  rw [← ofWord_magnitude x, ← ofWord_magnitude y, hx.unsigned, hy.unsigned, hmagnitude]

/-- **A natural number becomes the nearest double**, ties going to the even one. -/
theorem isNearest_ofNat (hn : n < 2 ^ 64) : IsNearest n (ofNat n) := by
  have hnumber := number_ofNat_eq hn
  constructor
  · exact isFinite_ofNat hn
  · intro y _
    rw [hnumber]
    exact (nearestWord_nearest hn (magnitude y)).1.trans (wordNumber_nearer y n).1
  · intro y _ hne heq
    rw [hnumber] at hne heq
    obtain ⟨hnearer, hnegative⟩ := wordNumber_nearer y n
    obtain ⟨hle, htie⟩ := nearestWord_nearest hn (magnitude y)
    have heven : nearestWord n 1 % 2 = 0 := by
      by_cases hsame : wordNumber (magnitude y) = wordNumber (nearestWord n 1)
      · -- the numbers would differ by the sign alone, and nothing but zero is as near with either
        have hzero := (nearestWord_nearest hn 0).1
        rw [wordNumber_zero, zero_sub, abs_neg, Nat.abs_cast] at hzero
        rw [hsame] at hnegative
        have hsum := hnegative hne
        have hword : wordNumber (nearestWord n 1) = 0 :=
          le_antisymm (by linarith) (wordNumber_nonneg _)
        rw [number_eq, hsame, hword, mul_zero] at hne
        exact absurd rfl hne
      · exact htie hsame (le_antisymm (hnearer.trans heq.le) hle)
    have hfraction := fractionField_toBits (ofNat n)
    rw [ofNat, magnitude_ofWord false (nearestWord_lt hn).le] at hfraction
    rw [ofNat, hfraction]
    omega

theorem converts_ofNat (hn : n < 2 ^ 64) : Converts n (ofNat n) :=
  ⟨isNearest_ofNat hn, isNegative_ofNat hn⟩

/-- A whole number below `2 ^ 53`, and `2 ^ 53` itself, has no units below the step of its shift. -/
theorem exists_multiple (hn : n ≤ 2 ^ 53) : ∃ k, n * one = k * 2 ^ ((n * one).log2 - 52) := by
  by_cases hzero : n = 0
  · exact ⟨0, by rw [hzero, Nat.zero_mul, Nat.zero_mul]⟩
  obtain ⟨e, he⟩ : ∃ e, 1074 = e := ⟨_, rfl⟩
  rcases Nat.lt_or_eq_of_le hn with hlt | heq
  · have hlog := log2_mul_one_lt hzero hlt
    rw [one, he] at hlog ⊢
    refine ⟨n * 2 ^ (e - ((n * 2 ^ e).log2 - 52)), ?_⟩
    rw [Nat.mul_assoc, Nat.pow_sub_mul_pow 2 (by omega)]
  · -- one bit more in front, so one more behind
    have hlog := log2_mul_one_lt hzero (show n < 2 ^ 54 by omega)
    rw [one, he] at hlog ⊢
    refine ⟨2 ^ 52 * 2 ^ (e + 1 - ((n * 2 ^ e).log2 - 52)), ?_⟩
    rw [Nat.mul_assoc, Nat.pow_sub_mul_pow 2 (by omega), heq, Nat.pow_succ]
    ring

/-- **Numbers up to `2 ^ 53` are exact.** -/
theorem number_ofNat (hn : n ≤ 2 ^ 53) : number (ofNat n) = n := by
  have hlt := nearestWord_lt (n := n) (by omega)
  have hunits : units (nearestWord n 1) = n * one := by
    obtain ⟨k, hk⟩ := exists_multiple hn
    have hq : k = roundHalfEven (n * one) (1 * 2 ^ ((n * one / 1).log2 - 52)) := by
      rw [Nat.one_mul, Nat.div_one]
      nth_rewrite 1 [hk]
      exact (roundHalfEven_mul k (Nat.two_pow_pos _)).symm
    rw [nearestWord, (roundUnits_parts Nat.one_pos hlt rfl hq).2, Nat.div_one, ← hk]
  rw [number_ofNat_eq (by omega), wordNumber, hunits, Nat.cast_mul,
    mul_div_cancel_right₀ _ cast_one_pos.ne']

theorem Converts.number_eq {x : Float} (h : Converts n x) (hn : n ≤ 2 ^ 53) : number x = n := by
  rw [h.unique (converts_ofNat (by omega)), number_ofNat hn]

end Naturals

end Binary64
end FormulaLang
