import Mathlib
import FormulaLang.Binary64

/-!
# FormulaLang.Proofs.FloatBits

Doubles and their bits. A double is determined by its sign and its magnitude word, and every word
up to that of infinity belongs to a double:

* `ofWord_magnitude`: sign and magnitude word give the double back.
* `magnitude_ofWord`, `isNegative_ofWord`: a double made of them has them.
* `isNaN_iff`, `isFinite_iff`: the words beyond, and below, that of infinity.
* `beq_zero_iff`: the word of zero.
* `neg_ofWord`: negation turns the double of a word into the other one of that word.

Core keeps doubles as bit patterns and reads them through `unpack`; `pack_unpack` says that
nothing is lost on the way.
-/

namespace FormulaLang
namespace Binary64

open Float.Model Float.Model.UnpackedFloat

/-! ## Packing -/

theorem toBitVec_ofBitVec (b : BitVec 1) : (Sign.ofBitVec b).toBitVec = b := by
  revert b
  decide

theorem packComponents_unpack (v : BitVec Format.binary64.numBits) :
    packComponents Format.binary64 (Sign.ofBitVec (unpackSign v)) (unpackExponent v)
      (unpackMantissa v) = v := by
  rw [packComponents, toBitVec_ofBitVec]
  apply BitVec.eq_of_getLsbD_eq
  intro i hi
  have hi : i < 64 := hi
  simp only [unpackSign, unpackExponent, unpackMantissa, BitVec.getLsbD_append,
    BitVec.getLsbD_cast, BitVec.getLsbD_extractLsb]
  split
  · rw [decide_eq_true (by omega), Bool.true_and, Nat.zero_add]
  · split
    · rw [decide_eq_true (by omega), Bool.true_and]
      congr 1
      omega
    · rw [decide_eq_true (by omega), Bool.true_and]
      congr 1
      omega

theorem pack_subnormal (s : Sign) (m : BitVec 52) (hpos : 0 < m.toNat) {e : Int}
    (he : e = -1074) :
    UnpackedFloat.pack Format.binary64 (.finite s m.toNat e hpos) =
      packComponents Format.binary64 s 0#11 m := by
  have hlog : m.toNat.log2 < 52 := (Nat.log2_lt (Nat.ne_of_gt hpos)).mpr m.isLt
  have hbiased : (e + Format.binary64.exponentBias +
      Format.binary64.mantissaBitsWithoutImplicit).toNat = 1 := by
    subst he
    decide
  have hbits : Format.binary64.mantissaBits = 53 := rfl
  simp only [UnpackedFloat.pack, hbiased, hbits]
  rw [if_neg (by decide), if_neg (by omega), BitVec.ofNat_toNat]
  rfl

theorem pack_normal (s : Sign) (exponent : BitVec 11) (m : BitVec 52) (hexponent : exponent ≠ -1#11)
    (hpos : 0 < (1#1 ++ m).toNat) {e : Int} (he : e = exponent.toNat - 1075) :
    UnpackedFloat.pack Format.binary64 (.finite s (1#1 ++ m).toNat e hpos) =
      packComponents Format.binary64 s exponent m := by
  have hm := m.isLt
  have hfull : (1#1 ++ m).toNat = 2 ^ 52 + m.toNat := by
    rw [BitVec.toNat_append, ← Nat.shiftLeft_add_eq_or_of_lt hm]
    simp [Nat.shiftLeft_eq]
  have hlog : (2 ^ 52 + m.toNat).log2 = 52 := by
    rw [Nat.log2_eq_iff (by omega)]
    omega
  have hlt : exponent.toNat < 2047 := by
    have hne : exponent.toNat ≠ 2047 := fun h => hexponent (BitVec.eq_of_toNat_eq h)
    have := exponent.isLt
    omega
  have hbias : Format.binary64.exponentBias = 1023 := by decide
  have hbiased : (e + Format.binary64.exponentBias +
      Format.binary64.mantissaBitsWithoutImplicit).toNat = exponent.toNat := by
    subst he
    rw [hbias]
    show ((exponent.toNat : Int) - 1075 + (1023 : Nat) + (52 : Nat)).toNat = _
    omega
  have hbits : Format.binary64.mantissaBits = 53 := rfl
  have hmantissa : BitVec.ofNat 52 (2 ^ 52 + m.toNat) = m := by
    apply BitVec.eq_of_toNat_eq
    rw [BitVec.toNat_ofNat]
    omega
  simp only [UnpackedFloat.pack, hbiased, hbits, hfull, hlog, hmantissa]
  rw [if_neg (by show ¬2 ^ 11 ≤ exponent.toNat + 1; omega), BitVec.ofNat_toNat]
  rfl

theorem pack_unpack {v : BitVec Format.binary64.numBits} (h : Format.binary64.Valid v) :
    UnpackedFloat.pack Format.binary64 (UnpackedFloat.unpack Format.binary64 v) = v := by
  have hparts := packComponents_unpack v
  unfold UnpackedFloat.unpack
  simp only
  split
  · rename_i he
    split
    · rename_i hm
      rw [he, hm] at hparts
      exact hparts
    · rename_i hm
      exact (h.eq_packedNaN he hm).symm
  · rename_i he
    split
    · rename_i h0
      split
      · rename_i hm
        rw [h0, hm] at hparts
        exact hparts
      · rw [pack_subnormal _ _ _ (by rw [h0]; decide), ← h0]
        exact hparts
    · rw [pack_normal _ (unpackExponent v) _ he]
      · exact hparts
      · have hbias : Format.binary64.exponentBias = 1023 := by decide
        rw [hbias]
        show ((unpackExponent v).toNat : Int) - ((1023 : Nat) + (52 : Nat)) = _
        omega

/-! ## Bits -/

theorem toBits_ofBits {b : UInt64} (h : Format.binary64.Valid b.toBitVec) :
    (Float.ofBits b).toBits = b := by
  show UInt64.ofBitVec _ = b
  rw [pack_unpack h]

theorem toBits_inj {x y : Float} (h : x.toBits = y.toBits) : x = y := by
  obtain ⟨⟨b, _⟩⟩ := x
  obtain ⟨⟨c, _⟩⟩ := y
  have hbits : b = c := h
  subst hbits
  rfl

theorem ofBits_toBits (x : Float) : Float.ofBits x.toBits = x :=
  toBits_inj (toBits_ofBits x.toModel.valid)

theorem toNat_unpackExponent (v : BitVec Format.binary64.numBits) :
    (unpackExponent v).toNat = v.toNat / 2 ^ 52 % 2 ^ 11 := by
  simp [unpackExponent, BitVec.extractLsb_toNat, Nat.shiftRight_eq_div_pow]

theorem toNat_unpackMantissa (v : BitVec Format.binary64.numBits) :
    (unpackMantissa v).toNat = v.toNat % 2 ^ 52 := by
  simp [unpackMantissa, BitVec.extractLsb_toNat]

/-- The exponent is all ones for infinity and for what is not a number. -/
theorem unpackExponent_eq_ones_iff {b : UInt64} :
    @unpackExponent Format.binary64 b.toBitVec = -1#_ ↔
      infinityWord ≤ b.toNat % 2 ^ 63 := by
  rw [← BitVec.toNat_inj, toNat_unpackExponent]
  show b.toNat / 2 ^ 52 % 2 ^ 11 = 2047 ↔ _
  rw [infinityWord]
  omega

theorem unpackMantissa_eq_zero_iff {b : UInt64} :
    @unpackMantissa Format.binary64 b.toBitVec = 0#_ ↔ b.toNat % 2 ^ 52 = 0 := by
  rw [← BitVec.toNat_inj, toNat_unpackMantissa]
  rfl

theorem valid_of_le {b : UInt64} (h : b.toNat % 2 ^ 63 ≤ infinityWord) :
    Format.binary64.Valid b.toBitVec := by
  refine ⟨fun he hm => absurd (unpackMantissa_eq_zero_iff.mpr ?_) hm⟩
  have hge := unpackExponent_eq_ones_iff.mp he
  rw [infinityWord] at h hge
  omega

theorem isNaN_iff {x : Float} : x.isNaN = true ↔ infinityWord < magnitude x := by
  have hexponent := unpackExponent_eq_ones_iff (b := x.toBits)
  have hmantissa := unpackMantissa_eq_zero_iff (b := x.toBits)
  show (UnpackedFloat.unpack Format.binary64 x.toBits.toBitVec).isNaN = true ↔ _
  rw [magnitude, UnpackedFloat.unpack]
  simp only
  split
  · rename_i he
    rw [hexponent, infinityWord] at he
    split
    · rename_i hm
      rw [hmantissa] at hm
      simp only [UnpackedFloat.isNaN, Bool.false_eq_true, false_iff, infinityWord]
      omega
    · rename_i hm
      rw [hmantissa] at hm
      simp only [UnpackedFloat.isNaN, true_iff, infinityWord]
      omega
  · rename_i he
    rw [hexponent] at he
    have hnan : ¬infinityWord < x.toBits.toNat % 2 ^ 63 := by omega
    split
    · split <;> simpa [UnpackedFloat.isNaN] using hnan
    · simpa [UnpackedFloat.isNaN] using hnan

theorem isFinite_iff {x : Float} : x.isFinite = true ↔ magnitude x < infinityWord := by
  have hexponent := unpackExponent_eq_ones_iff (b := x.toBits)
  show (UnpackedFloat.unpack Format.binary64 x.toBits.toBitVec).isFinite = true ↔ _
  rw [magnitude, UnpackedFloat.unpack]
  simp only
  split
  · rename_i he
    rw [hexponent] at he
    split <;> simpa [UnpackedFloat.isFinite] using he
  · rename_i he
    rw [hexponent] at he
    split
    · split <;> simpa [UnpackedFloat.isFinite] using he
    · simpa [UnpackedFloat.isFinite] using he

/-- There is one double that is not a number. -/
theorem eq_of_isNaN {x y : Float} (hx : x.isNaN = true) (hy : y.isNaN = true) : x = y := by
  have hbits : ∀ z : Float, z.isNaN = true → z.toBits.toBitVec = packedNaN Format.binary64 := by
    intro z hz
    rw [isNaN_iff, magnitude, infinityWord] at hz
    have hvalid : Format.binary64.Valid z.toBits.toBitVec := z.toModel.valid
    apply hvalid.eq_packedNaN
    · exact unpackExponent_eq_ones_iff.mpr (by rw [infinityWord]; omega)
    · exact fun hzero => absurd (unpackMantissa_eq_zero_iff.mp hzero) (by omega)
  exact toBits_inj (UInt64.toBitVec_inj.mp ((hbits x hx).trans (hbits y hy).symm))

theorem magnitude_le_of_isNaN {x : Float} (h : ¬x.isNaN = true) : magnitude x ≤ infinityWord := by
  rw [isNaN_iff] at h
  omega

theorem magnitude_of_not_finite {x : Float} (hx : x.isNaN = false) (hfinite : ¬x.isFinite = true) :
    magnitude x = infinityWord := by
  have hle := magnitude_le_of_isNaN (Bool.eq_false_iff.mp hx)
  rw [isFinite_iff] at hfinite
  omega

/-! ## Zero -/

theorem unpackExponent_eq_zero_iff {b : UInt64} :
    @unpackExponent Format.binary64 b.toBitVec = 0#_ ↔ b.toNat % 2 ^ 63 < 2 ^ 52 := by
  rw [← BitVec.toNat_inj, toNat_unpackExponent]
  show b.toNat / 2 ^ 52 % 2 ^ 11 = 0 ↔ _
  omega

theorem unpack_eq_zero_iff {x : Float} :
    (∃ s, UnpackedFloat.unpack Format.binary64 x.toBits.toBitVec = .zero s) ↔ magnitude x = 0 := by
  have hones := unpackExponent_eq_ones_iff (b := x.toBits)
  have hexponent := unpackExponent_eq_zero_iff (b := x.toBits)
  have hmantissa := unpackMantissa_eq_zero_iff (b := x.toBits)
  rw [magnitude, UnpackedFloat.unpack]
  simp only
  split
  · rename_i he
    rw [hones, infinityWord] at he
    have hne : x.toBits.toNat % 2 ^ 63 ≠ 0 := by omega
    split <;> simpa using hne
  · split
    · rename_i h0
      rw [hexponent] at h0
      split
      · rename_i hm
        rw [hmantissa] at hm
        have heq : x.toBits.toNat % 2 ^ 63 = 0 := by omega
        exact ⟨fun _ => heq, fun _ => ⟨_, rfl⟩⟩
      · rename_i hm
        rw [hmantissa] at hm
        have hne : x.toBits.toNat % 2 ^ 63 ≠ 0 := by omega
        simpa using hne
    · rename_i h0
      rw [hexponent] at h0
      have hne : x.toBits.toNat % 2 ^ 63 ≠ 0 := by omega
      simpa using hne

theorem compare_zero_iff {u : UnpackedFloat} {s : Sign} :
    u.compare (.zero s) = some .eq ↔ ∃ s', u = .zero s' := by
  cases u with
  | infinity s' => cases s' <;> simp [UnpackedFloat.compare]
  | notANumber => simp [UnpackedFloat.compare]
  | zero s' => simp [UnpackedFloat.compare]
  | finite s' => cases s' <;> simp [UnpackedFloat.compare]

/-- The zeros of both signs are equal to zero, and nothing else is. -/
theorem beq_zero_iff {x : Float} : (x == 0.0) = true ↔ magnitude x = 0 := by
  rw [← unpack_eq_zero_iff, ← compare_zero_iff (s := .positive)]
  exact beq_iff_eq (a := UnpackedFloat.compare _ (.zero .positive)) (b := some .eq)

/-! ## Sign and magnitude -/

theorem toNat_toBits_ofWord (negative : Bool) {w : Nat} (h : w ≤ infinityWord) :
    (ofWord negative w).toBits.toNat = if negative then 2 ^ 63 + w else w := by
  have hlt : (if negative then 2 ^ 63 + w else w) < 2 ^ 64 := by
    rw [infinityWord] at h
    split <;> omega
  have hnat : (UInt64.ofNat (if negative then 2 ^ 63 + w else w)).toNat =
      if negative then 2 ^ 63 + w else w := UInt64.toNat_ofNat_of_lt' hlt
  rw [ofWord, toBits_ofBits, hnat]
  apply valid_of_le
  rw [hnat]
  rw [infinityWord] at h ⊢
  split <;> omega

theorem magnitude_ofWord (negative : Bool) {w : Nat} (h : w ≤ infinityWord) :
    magnitude (ofWord negative w) = w := by
  rw [magnitude, toNat_toBits_ofWord negative h]
  rw [infinityWord] at h
  split <;> omega

theorem isNegative_ofWord (negative : Bool) {w : Nat} (h : w ≤ infinityWord) :
    isNegative (ofWord negative w) = negative := by
  rw [isNegative, toNat_toBits_ofWord negative h]
  rw [infinityWord] at h
  cases negative with
  | false => simp; omega
  | true => simp

theorem ofWord_magnitude (x : Float) : ofWord (isNegative x) (magnitude x) = x := by
  have hlt := x.toBits.toNat_lt
  have hbits : (if isNegative x then 2 ^ 63 + magnitude x else magnitude x) = x.toBits.toNat := by
    rw [isNegative, magnitude]
    split
    · simp_all; omega
    · simp_all
  rw [ofWord, hbits, UInt64.ofNat_toNat, ofBits_toBits]

/-! ## Negation -/

/-- Bits that differ in nothing but the sign are read as negatives of each other. -/
theorem unpack_neg {v w : BitVec Format.binary64.numBits}
    (hexponent : unpackExponent w = unpackExponent v)
    (hmantissa : unpackMantissa w = unpackMantissa v)
    (hsign : Sign.ofBitVec (unpackSign w) = -Sign.ofBitVec (unpackSign v)) :
    UnpackedFloat.unpack Format.binary64 w = (UnpackedFloat.unpack Format.binary64 v).neg := by
  unfold UnpackedFloat.unpack
  simp only [hexponent, hmantissa, hsign]
  split
  · split <;> rfl
  · split
    · split <;> rfl
    · rfl

theorem toNat_unpackSign (v : BitVec Format.binary64.numBits) :
    (unpackSign v).toNat = v.toNat / 2 ^ 63 % 2 := by
  simp [unpackSign, BitVec.extractLsb_toNat, Nat.shiftRight_eq_div_pow]

theorem sign_toBits (x : Float) :
    Sign.ofBitVec (@unpackSign Format.binary64 x.toBits.toBitVec) =
      if isNegative x then .negative else .positive := by
  have hsign : @unpackSign Format.binary64 x.toBits.toBitVec = 0#1 ↔ ¬2 ^ 63 ≤ x.toBits.toNat := by
    rw [← BitVec.toNat_inj, toNat_unpackSign]
    show x.toBits.toNat / 2 ^ 63 % 2 = 0 ↔ _
    have hlt := x.toBits.toNat_lt
    omega
  rw [Sign.ofBitVec, isNegative]
  simp only [hsign, decide_eq_true_eq]
  exact ite_not ..

/-- The sign is all that negation changes. -/
theorem neg_eq {x y : Float} (hmagnitude : magnitude y = magnitude x)
    (hsign : isNegative y = !isNegative x) : -x = y := by
  have hexponent : @unpackExponent Format.binary64 y.toBits.toBitVec =
      @unpackExponent Format.binary64 x.toBits.toBitVec := by
    rw [← BitVec.toNat_inj, toNat_unpackExponent, toNat_unpackExponent]
    show y.toBits.toNat / 2 ^ 52 % 2 ^ 11 = x.toBits.toNat / 2 ^ 52 % 2 ^ 11
    rw [magnitude, magnitude] at hmagnitude
    omega
  have hmantissa : @unpackMantissa Format.binary64 y.toBits.toBitVec =
      @unpackMantissa Format.binary64 x.toBits.toBitVec := by
    rw [← BitVec.toNat_inj, toNat_unpackMantissa, toNat_unpackMantissa]
    show y.toBits.toNat % 2 ^ 52 = x.toBits.toNat % 2 ^ 52
    rw [magnitude, magnitude] at hmagnitude
    omega
  have hneg := unpack_neg hexponent hmantissa (by
    rw [sign_toBits, sign_toBits, hsign]
    cases isNegative x <;> rfl)
  apply toBits_inj
  show UInt64.ofBitVec (UnpackedFloat.pack Format.binary64
    (UnpackedFloat.unpack Format.binary64 x.toBits.toBitVec).neg) = y.toBits
  rw [← hneg]
  exact congrArg UInt64.ofBitVec (pack_unpack y.toModel.valid)

theorem neg_ofWord {w : Nat} (h : w ≤ infinityWord) : -ofWord false w = ofWord true w := by
  apply neg_eq
  · rw [magnitude_ofWord _ h, magnitude_ofWord _ h]
  · rw [isNegative_ofWord _ h, isNegative_ofWord _ h]
    rfl

end Binary64
end FormulaLang
