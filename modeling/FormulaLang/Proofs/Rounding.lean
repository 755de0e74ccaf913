import FormulaLang.Proofs.ShortestText

/-!
# FormulaLang.Proofs.Rounding

Rounding to the nearest magnitude word. The words that have a bit of a given size or a greater one
stand for multiples of a step (`units_on_grid`); the quotient is rounded to such a multiple, at
most half a step off (`roundHalfEven_off`), so no other multiple is nearer (`nearest_multiple`).

Main statement: no word's units lie nearer to a quotient than those of the word it is rounded to,
and ties go to the even word (`roundUnits_nearest`).
-/

namespace FormulaLang
namespace Binary64

/-! ## Rounding to a multiple -/

theorem roundHalfEven_off (num : Nat) {den : Nat} (hden : 0 < den) :
    2 * num ≤ 2 * (roundHalfEven num den * den) + den ∧
      2 * (roundHalfEven num den * den) ≤ 2 * num + den ∧
      (2 * num = 2 * (roundHalfEven num den * den) + den ∨
        2 * (roundHalfEven num den * den) = 2 * num + den → roundHalfEven num den % 2 = 0) := by
  have hsplit := Nat.div_add_mod' num den
  have hrem := Nat.mod_lt num hden
  have hnext : (num / den + 1) * den = num / den * den + den := Nat.succ_mul _ _
  rw [roundHalfEven]
  split
  · omega
  · split
    · rw [hnext]
      omega
    · rcases Nat.mod_two_eq_zero_or_one (num / den) with heven | hodd
      · rw [heven, Nat.add_zero]
        omega
      · rw [hodd, hnext]
        omega

/-- A multiple of `step` that lies at most half a step from `n` is as near as any other, and if
another is as near, it lies half a step off. -/
theorem nearest_multiple {step n q : ℤ} (hstep : 0 < step) (hlow : 2 * n ≤ 2 * (q * step) + step)
    (hhigh : 2 * (q * step) ≤ 2 * n + step) (k : ℤ) :
    |q * step - n| ≤ |k * step - n| ∧ (k ≠ q → |k * step - n| = |q * step - n| →
      2 * n = 2 * (q * step) + step ∨ 2 * (q * step) = 2 * n + step) := by
  rcases lt_trichotomy k q with hlt | rfl | hlt
  · have hnext : k * step + step ≤ q * step := by
      calc k * step + step = (k + 1) * step := by ring
        _ ≤ q * step := Int.mul_le_mul_of_nonneg_right hlt hstep.le
    rcases abs_cases (q * step - n) with ⟨hq, _⟩ | ⟨hq, _⟩
    · rcases abs_cases (k * step - n) with ⟨hk, _⟩ | ⟨hk, _⟩ <;> omega
    · rcases abs_cases (k * step - n) with ⟨hk, _⟩ | ⟨hk, _⟩ <;> omega
  · exact ⟨le_refl _, fun h => absurd rfl h⟩
  · have hnext : q * step + step ≤ k * step := by
      calc q * step + step = (q + 1) * step := by ring
        _ ≤ k * step := Int.mul_le_mul_of_nonneg_right hlt hstep.le
    rcases abs_cases (q * step - n) with ⟨hq, _⟩ | ⟨hq, _⟩
    · rcases abs_cases (k * step - n) with ⟨hk, _⟩ | ⟨hk, _⟩ <;> omega
    · rcases abs_cases (k * step - n) with ⟨hk, _⟩ | ⟨hk, _⟩ <;> omega

/-! ## The grid of the words -/

theorem units_of_normal {w : Nat} (h : 2 ^ 52 ≤ w) :
    units w = (2 ^ 52 + w % 2 ^ 52) * 2 ^ (w / 2 ^ 52 - 1) := by
  rw [units]
  split
  · rename_i hlt
    have hexponent : w / 2 ^ 52 - 1 = 0 := by omega
    rw [hexponent, Nat.pow_zero, Nat.mul_one]
    omega
  · rfl

/-- The word with exponent shift `shift` and significand `q`, which may carry. -/
theorem units_word {shift q : Nat} (hq : q ≤ 2 ^ 53) (hnormal : shift = 0 ∨ 2 ^ 52 ≤ q) :
    units (shift * 2 ^ 52 + q) = q * 2 ^ shift := by
  by_cases hsmall : q < 2 ^ 52
  · obtain rfl : shift = 0 := hnormal.resolve_right (by omega)
    rw [Nat.zero_mul, Nat.zero_add, units, if_pos (by omega), Nat.pow_zero, Nat.mul_one]
  · rw [units_of_normal (by omega)]
    rcases Nat.lt_or_eq_of_le hq with hlt | heq
    · have hfraction : (shift * 2 ^ 52 + q) % 2 ^ 52 = q - 2 ^ 52 := by omega
      have hexponent : (shift * 2 ^ 52 + q) / 2 ^ 52 - 1 = shift := by omega
      rw [hfraction, hexponent, Nat.add_sub_of_le (by omega)]
    · have hfraction : (shift * 2 ^ 52 + q) % 2 ^ 52 = 0 := by omega
      have hexponent : (shift * 2 ^ 52 + q) / 2 ^ 52 - 1 = shift + 1 := by omega
      rw [hfraction, hexponent, Nat.pow_succ, heq]
      ring

theorem units_succ (w : Nat) : ∃ shift, units (w + 1) = units w + 2 ^ shift := by
  obtain ⟨shift, q, hw, hq, hnormal⟩ :
      ∃ shift q, w = shift * 2 ^ 52 + q ∧ q < 2 ^ 53 ∧ (shift = 0 ∨ 2 ^ 52 ≤ q) := by
    by_cases hsmall : w < 2 ^ 53
    · exact ⟨0, w, by omega, hsmall, .inl rfl⟩
    · exact ⟨w / 2 ^ 52 - 1, 2 ^ 52 + w % 2 ^ 52, by omega, by omega, .inr (by omega)⟩
  refine ⟨shift, ?_⟩
  rw [hw, Nat.add_assoc, units_word hq.le hnormal, units_word hq (by omega), Nat.succ_mul]

theorem units_strictMono : StrictMono units := by
  refine strictMono_nat_of_lt_succ fun w => ?_
  obtain ⟨shift, hsucc⟩ := units_succ w
  rw [hsucc]
  exact Nat.lt_add_of_pos_right (Nat.two_pow_pos shift)

/-- A word stands for a multiple of `2 ^ shift` units, or for fewer than any significand with that
shift does. -/
theorem units_on_grid (shift w : Nat) :
    (∃ k, units w = k * 2 ^ shift) ∨ (shift ≠ 0 ∧ units w < 2 ^ 52 * 2 ^ shift) := by
  by_cases hshift : shift = 0
  · subst hshift
    exact .inl ⟨units w, by rw [Nat.pow_zero, Nat.mul_one]⟩
  have htwo : 2 ^ 53 ≤ 2 ^ 52 * 2 ^ shift := by
    rw [← Nat.pow_add]
    exact Nat.pow_le_pow_right (by omega) (by omega)
  by_cases hsmall : w < 2 ^ 52
  · refine .inr ⟨hshift, ?_⟩
    rw [units, if_pos (by omega)]
    omega
  rw [units_of_normal (by omega)]
  by_cases hfine : w / 2 ^ 52 - 1 < shift
  · refine .inr ⟨hshift, ?_⟩
    calc (2 ^ 52 + w % 2 ^ 52) * 2 ^ (w / 2 ^ 52 - 1)
        < 2 ^ 53 * 2 ^ (w / 2 ^ 52 - 1) :=
          Nat.mul_lt_mul_of_pos_right (by omega) (Nat.two_pow_pos _)
      _ = 2 ^ 52 * 2 ^ (w / 2 ^ 52 - 1 + 1) := by rw [Nat.pow_succ]; ring
      _ ≤ 2 ^ 52 * 2 ^ shift :=
          Nat.mul_le_mul_left _ (Nat.pow_le_pow_right (by omega) (by omega))
  · refine .inl ⟨(2 ^ 52 + w % 2 ^ 52) * 2 ^ (w / 2 ^ 52 - 1 - shift), ?_⟩
    rw [Nat.mul_assoc, ← Nat.pow_add]
    congr 2
    omega

/-! ## Rounding to a word -/

theorem shift_bounds (n : Nat) :
    n < 2 ^ 53 * 2 ^ (n.log2 - 52) ∧
      (n.log2 - 52 = 0 ∨ 2 ^ 52 * 2 ^ (n.log2 - 52) ≤ n) := by
  constructor
  · calc n < 2 ^ (n.log2 + 1) := Nat.lt_log2_self
      _ ≤ 2 ^ (53 + (n.log2 - 52)) := Nat.pow_le_pow_right (by omega) (by omega)
      _ = 2 ^ 53 * 2 ^ (n.log2 - 52) := Nat.pow_add 2 53 _
  · by_cases hlog : n.log2 ≤ 52
    · exact .inl (Nat.sub_eq_zero_of_le hlog)
    · right
      have hne : n ≠ 0 := by
        rintro rfl
        simp at hlog
      calc 2 ^ 52 * 2 ^ (n.log2 - 52) = 2 ^ (52 + (n.log2 - 52)) := (Nat.pow_add 2 52 _).symm
        _ = 2 ^ n.log2 := by congr 1; omega
        _ ≤ n := Nat.log2_self_le hne

section Significand

variable {num den shift q : Nat}

theorem significand_bounds (hden : 0 < den) (hshift : shift = (num / den).log2 - 52)
    (hq : q = roundHalfEven num (den * 2 ^ shift)) :
    q ≤ 2 ^ 53 ∧ (shift = 0 ∨ 2 ^ 52 ≤ q) ∧ (shift = 0 ∨ 2 ^ 52 * (den * 2 ^ shift) ≤ num) := by
  obtain ⟨hupper, hlower⟩ := shift_bounds (num / den)
  rw [← hshift] at hupper hlower
  have hstep : 0 < den * 2 ^ shift := Nat.mul_pos hden (Nat.two_pow_pos _)
  obtain ⟨hlow, hhigh, -⟩ := roundHalfEven_off num hstep
  rw [← hq] at hlow hhigh
  have hnum : num < 2 ^ 53 * (den * 2 ^ shift) := by
    calc num < 2 ^ 53 * 2 ^ shift * den := (Nat.div_lt_iff_lt_mul hden).mp hupper
      _ = 2 ^ 53 * (den * 2 ^ shift) := by ring
  have hge : shift = 0 ∨ 2 ^ 52 * (den * 2 ^ shift) ≤ num := by
    refine hlower.imp id fun hle => ?_
    calc 2 ^ 52 * (den * 2 ^ shift) = 2 ^ 52 * 2 ^ shift * den := by ring
      _ ≤ num := (Nat.le_div_iff_mul_le hden).mp hle
  refine ⟨?_, hge.imp id fun hle => ?_, hge⟩
  · by_contra hgt
    have hmul := Nat.mul_le_mul_right (den * 2 ^ shift) (show 2 ^ 53 + 1 ≤ q by omega)
    rw [Nat.add_mul] at hmul
    omega
  · by_contra hlt
    have hmul := Nat.mul_le_mul_right (den * 2 ^ shift) (show q + 1 ≤ 2 ^ 52 by omega)
    rw [Nat.add_mul] at hmul
    omega

theorem roundUnits_lt (hden : 0 < den) (hlog : (num / den).log2 < 2097) :
    roundUnits num den < infinityWord := by
  have hq : roundHalfEven num (den * 2 ^ ((num / den).log2 - 52)) ≤ 2 ^ 53 :=
    (significand_bounds hden rfl rfl).1
  rw [roundUnits, infinityWord]
  omega

theorem roundUnits_parts (hden : 0 < den) (h : roundUnits num den < infinityWord)
    (hshift : shift = (num / den).log2 - 52) (hq : q = roundHalfEven num (den * 2 ^ shift)) :
    roundUnits num den = shift * 2 ^ 52 + q ∧ units (roundUnits num den) = q * 2 ^ shift := by
  have hround : roundUnits num den = shift * 2 ^ 52 + q := by
    rw [roundUnits, ← hshift, ← hq] at h ⊢
    exact Nat.min_eq_right (by omega)
  obtain ⟨hle, hge, -⟩ := significand_bounds hden hshift hq
  exact ⟨hround, by rw [hround, units_word hle hge]⟩

end Significand

/-- **Rounding finds the nearest word.** No other word's units lie nearer to the quotient, and
where those of another lie as near, the word is even. All distances are multiplied by the divisor. -/
theorem roundUnits_nearest {num den : Nat} (hden : 0 < den)
    (h : roundUnits num den < infinityWord) (w : Nat) :
    |(units (roundUnits num den) * den : ℤ) - num| ≤ |(units w * den : ℤ) - num| ∧
      (units w ≠ units (roundUnits num den) →
        |(units w * den : ℤ) - num| = |(units (roundUnits num den) * den : ℤ) - num| →
        roundUnits num den % 2 = 0) := by
  obtain ⟨shift, hshift⟩ : ∃ shift, shift = (num / den).log2 - 52 := ⟨_, rfl⟩
  obtain ⟨q, hq⟩ : ∃ q, q = roundHalfEven num (den * 2 ^ shift) := ⟨_, rfl⟩
  obtain ⟨hround, hunits⟩ := roundUnits_parts hden h hshift hq
  obtain ⟨-, -, hge⟩ := significand_bounds hden hshift hq
  have hstep : 0 < den * 2 ^ shift := Nat.mul_pos hden (Nat.two_pow_pos _)
  obtain ⟨hlow, hhigh, heven⟩ := roundHalfEven_off num hstep
  rw [← hq] at hlow hhigh heven
  rw [hunits, hround]
  obtain ⟨step, hstepdef⟩ : ∃ step, step = den * 2 ^ shift := ⟨_, rfl⟩
  rw [← hstepdef] at hstep hlow hhigh heven hge
  have hscaled : ((q * 2 ^ shift : ℕ) * den : ℤ) = q * step := by
    rw [hstepdef]
    push_cast
    ring
  rw [hscaled]
  have hsteps : (0 : ℤ) < step := by omega
  have hnearest := nearest_multiple (n := num) (q := q) hsteps (by omega) (by omega)
  rcases units_on_grid shift w with ⟨k, hk⟩ | ⟨hne, hbelow⟩
  · have hother : ((units w : ℤ) * den) = k * step := by
      rw [hk, hstepdef]
      push_cast
      ring
    rw [hother]
    obtain ⟨hle, htie⟩ := hnearest k
    refine ⟨hle, fun hne heq => ?_⟩
    have hkq : (k : ℤ) ≠ q := by
      intro hkq
      rw [hk, Int.ofNat_inj.mp hkq] at hne
      exact hne rfl
    have hoff := htie hkq heq
    have hqeven : q % 2 = 0 := heven (by omega)
    omega
  · -- below the grid even its first multiple is nearer
    have hnum := hge.resolve_left hne
    have hless : units w * den < 2 ^ 52 * step := by
      calc units w * den < 2 ^ 52 * 2 ^ shift * den := Nat.mul_lt_mul_of_pos_right hbelow hden
        _ = 2 ^ 52 * step := by rw [hstepdef]; ring
    have hfirst := (hnearest (2 ^ 52)).1
    have hlt : |(2 ^ 52 * step : ℤ) - num| < |(units w * den : ℤ) - num| := by
      have hless' : (units w * den : ℤ) < 2 ^ 52 * step := by exact_mod_cast hless
      have hnum' : (2 ^ 52 * step : ℤ) ≤ num := by exact_mod_cast hnum
      rw [abs_of_nonpos (by linarith), abs_of_neg (by linarith)]
      linarith
    exact ⟨(hfirst.trans hlt.le), fun _ heq => absurd heq (hfirst.trans_lt hlt).ne'⟩

end Binary64
end FormulaLang
