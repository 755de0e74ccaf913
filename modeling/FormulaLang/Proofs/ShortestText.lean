import FormulaLang.Decimal.Shortest
import FormulaLang.Proofs.FloatBits
import FormulaLang.Proofs.Numeral

/-!
# FormulaLang.Proofs.ShortestText

The text of a double reads back as that double.

* `roundUnits_units`: a whole number of units that a word stands for rounds to that word.
* `word_shortest`: the search for a short decimal ends with one that denotes the word.
* `numeral_text`: the text of a decimal is a numeral of the same word.
* `numeral_magnitudeText`: both together, for the magnitude word of a finite double.
-/

namespace FormulaLang

/-! ## Rounding what needs no rounding -/

namespace Binary64

theorem roundHalfEven_mul (q : Nat) {den : Nat} (h : 0 < den) : roundHalfEven (q * den) den = q := by
  rw [roundHalfEven]
  simp only [Nat.mul_mod_left, Nat.mul_div_cancel q h]
  rw [if_pos (by omega)]

theorem log2_mul_two_pow {m : Nat} (h : m < 2 ^ 52) (s : Nat) :
    ((2 ^ 52 + m) * 2 ^ s).log2 = 52 + s := by
  have hpos : 0 < 2 ^ s := Nat.two_pow_pos s
  have hne : (2 ^ 52 + m) * 2 ^ s ≠ 0 := Nat.ne_of_gt (Nat.mul_pos (by omega) hpos)
  rw [Nat.log2_eq_iff hne]
  constructor
  · calc 2 ^ (52 + s) = 2 ^ 52 * 2 ^ s := Nat.pow_add 2 52 s
      _ ≤ (2 ^ 52 + m) * 2 ^ s := Nat.mul_le_mul_right _ (by omega)
  · calc (2 ^ 52 + m) * 2 ^ s < 2 ^ 53 * 2 ^ s := Nat.mul_lt_mul_of_pos_right (by omega) hpos
      _ = 2 ^ (52 + s + 1) := by rw [← Nat.pow_add]; congr 1; omega

theorem roundUnits_units {w den : Nat} (h : w ≤ infinityWord) (hden : 0 < den) :
    roundUnits (units w * den) den = w := by
  rw [roundUnits]
  simp only [Nat.mul_div_cancel _ hden]
  rw [units]
  split
  · rename_i hsmall
    have hlog : w.log2 - 52 = 0 := by
      by_cases hw : w = 0
      · subst hw
        decide
      · have := (Nat.log2_lt hw).mpr hsmall
        omega
    rw [hlog, Nat.pow_zero, Nat.mul_one, roundHalfEven_mul w hden, Nat.zero_mul, Nat.zero_add]
    exact Nat.min_eq_right h
  · rename_i hlarge
    have hm : w % 2 ^ 52 < 2 ^ 52 := Nat.mod_lt _ (by decide)
    rw [log2_mul_two_pow hm, Nat.add_sub_cancel_left]
    rw [Nat.mul_assoc, Nat.mul_comm _ den, roundHalfEven_mul]
    · rw [Nat.min_eq_right]
      · omega
      · omega
    · exact Nat.mul_pos hden (Nat.two_pow_pos _)

end Binary64
/-! ## The search -/

namespace Decimal

theorem five_pow_mul_one : 5 ^ 1074 * Binary64.one = 10 ^ 1074 := by
  obtain ⟨n, hn⟩ : ∃ n : Nat, n = 1074 := ⟨_, rfl⟩
  rw [Binary64.one, ← hn, ← Nat.mul_pow]

theorem word_exact {w : Nat} (h : w ≤ Binary64.infinityWord) : word ⟨exact w, finest⟩ = w := by
  have hexp : (-finest).toNat = 1074 := rfl
  have hneg : ¬(0 : Int) ≤ finest := by simp [finest]
  have hpos : ∀ n : Nat, 0 < 10 ^ n := fun n => Nat.pow_pos (by omega)
  rw [word]
  simp only [hneg, if_false, hexp]
  rw [Binary64.nearestWord, exact, Nat.mul_assoc, five_pow_mul_one]
  exact Binary64.roundUnits_units h (hpos 1074)

theorem word_search {w value : Nat} (h : word ⟨value, finest⟩ = w) (n : Nat) :
    (search w value n).word = w := by
  induction n with
  | zero => exact h
  | succ n ih =>
    simp only [search]
    split
    · rename_i hlower
      split
      · rename_i hupper
        split
        · exact hlower
        · exact hupper
      · exact hlower
    · split
      · rename_i hupper
        exact hupper
      · exact ih

theorem word_shortest {w : Nat} (h : w ≤ Binary64.infinityWord) : (shortest w).word = w :=
  word_search (word_exact h) _

/-! ## The text of a decimal -/

theorem isDigit_of_mem_zeros {n : Nat} {c : Char} (h : c ∈ List.replicate n '0') :
    c.isDigit = true := by
  rw [(List.mem_replicate.mp h).2]
  rfl

theorem isDigit_of_mem_toDigits {n : Nat} {c : Char} (h : c ∈ Nat.toDigits 10 n) :
    c.isDigit = true :=
  Nat.isDigit_of_mem_toDigits (by omega) (by omega) h

theorem isDigit_of_mem_paddedDigits {places n : Nat} {c : Char} (h : c ∈ paddedDigits places n) :
    c.isDigit = true := by
  rcases List.mem_append.mp h with h | h
  · exact isDigit_of_mem_zeros h
  · exact isDigit_of_mem_toDigits h

theorem places_lt_length_paddedDigits (places n : Nat) :
    places < (paddedDigits places n).length := by
  rw [paddedDigits, List.length_append, List.length_replicate]
  omega

theorem ofDigitChars_paddedDigits (places n : Nat) :
    Nat.ofDigitChars 10 (paddedDigits places n) 0 = n := by
  rw [paddedDigits, Nat.ofDigitChars_append, Nat.ofDigitChars_replicate_zero, Nat.mul_zero,
    Nat.ofDigitChars_ten_toDigits]

theorem ofDigitChars_zeros (n places : Nat) :
    Nat.ofDigitChars 10 (Nat.toDigits 10 n ++ List.replicate places '0') 0 = n * 10 ^ places := by
  rw [Nat.ofDigitChars_append, Nat.ofDigitChars_ten_toDigits, Nat.ofDigitChars_replicate_zero,
    Nat.mul_comm]

theorem numeral_text (d : Decimal) :
    Numeral d.text.toList ∧ (numeral d.text.toList).word = d.word := by
  by_cases h : 0 ≤ d.exponent
  · have htext : d.text.toList =
        Nat.toDigits 10 d.coefficient ++ List.replicate d.exponent.toNat '0' := by
      rw [text, if_pos h, String.toList_ofList]
    have hdigits : ∀ c ∈ d.text.toList, c.isDigit = true := by
      intro c hc
      rw [htext] at hc
      rcases List.mem_append.mp hc with hc | hc
      · exact isDigit_of_mem_toDigits hc
      · exact isDigit_of_mem_zeros hc
    constructor
    · rw [numeral_digits_iff hdigits, htext]
      simp [Nat.toDigits_ne_nil]
    · rw [numeral_digits hdigits, htext, ofDigitChars_zeros, word, word, if_pos h]
      simp
  · obtain ⟨places, hplaces⟩ : ∃ places, places = (-d.exponent).toNat := ⟨_, rfl⟩
    obtain ⟨digits, hdef⟩ : ∃ digits, digits = paddedDigits places d.coefficient := ⟨_, rfl⟩
    have htext : d.text.toList = digits.take (digits.length - places) ++
        '.' :: digits.drop (digits.length - places) := by
      rw [text, if_neg h, hdef, hplaces, String.toList_ofList]
    have hdigits : ∀ c ∈ digits, c.isDigit = true := by
      rw [hdef]
      exact fun c => isDigit_of_mem_paddedDigits
    have hlength : places < digits.length := by
      rw [hdef]
      exact places_lt_length_paddedDigits _ _
    have hwhole : ∀ c ∈ digits.take (digits.length - places), c.isDigit = true :=
      fun c hc => hdigits c (List.mem_of_mem_take hc)
    have hfraction : ∀ c ∈ digits.drop (digits.length - places), c.isDigit = true :=
      fun c hc => hdigits c (List.mem_of_mem_drop hc)
    rw [htext]
    constructor
    · rw [numeral_point_iff hwhole]
      refine ⟨hfraction, fun hempty => ?_⟩
      have := congrArg List.length hempty.1
      rw [List.length_take] at this
      simp at this
      omega
    · rw [numeral_point hwhole hfraction, List.take_append_drop, hdef, ofDigitChars_paddedDigits,
        ← hdef, List.length_drop]
      have : -((digits.length - (digits.length - places) : Nat) : Int) = d.exponent := by omega
      rw [this]

theorem numeral_zero : Numeral ['0'] ∧ (numeral ['0']).word = 0 := by
  have hdigit : ∀ c ∈ ['0'], c.isDigit = true := by simp
  constructor
  · rw [numeral_digits_iff hdigit]
    simp
  · have hvalue : Nat.ofDigitChars 10 ['0'] 0 = 0 := rfl
    rw [numeral_digits hdigit, hvalue, word, if_pos (Int.le_refl 0), Binary64.nearestWord,
      Nat.zero_mul, Nat.zero_mul]
    rfl

theorem numeral_magnitudeText {w : Nat} (h : w < Binary64.infinityWord) :
    Numeral (magnitudeText w).toList ∧ (numeral (magnitudeText w).toList).word = w := by
  rw [magnitudeText]
  split
  · rename_i hzero
    rw [hzero]
    exact numeral_zero
  · rw [if_neg (Nat.ne_of_lt h)]
    obtain ⟨hnumeral, hword⟩ := numeral_text (shortest w)
    rw [word_shortest (Nat.le_of_lt h)] at hword
    exact ⟨hnumeral, hword⟩

end Decimal
end FormulaLang
