import FormulaLang.Proofs.ShortestText

/-!
# FormulaLang.Proofs.SignedNumeral

The text of every double is a signed numeral of that double, also of negative zero, of the
infinities and of what is not a number (`readSigned?_floatText`). Behind its sign the text is a
plain numeral or a word, so the reader finds no exponent; and the sign turns the double of a
magnitude word into the other one of that word (`neg_ofWord`).
-/

namespace FormulaLang
namespace Decimal

open Binary64

theorem toLower_of_isNumberChar {c : Char} (h : isNumberChar c = true) : c.toLower = c := by
  have hle : c.toNat ≤ 57 := by
    by_cases hpoint : c = '.'
    · rw [hpoint]
      decide
    · exact (Char.isDigit_iff_toNat.mp (isDigit_of_isNumberChar h hpoint)).2
  rw [Char.toLower, dif_neg]
  intro hupper
  have hge : 65 ≤ c.toNat := hupper.1
  omega

theorem readMagnitude?_of_numeral {cs : List Char} (h : Numeral cs) :
    readMagnitude? cs = some (ofWord false (numeral cs).word) := by
  have hfolded : cs.map Char.toLower = cs := by
    rw [List.map_congr_left fun c hc => toLower_of_isNumberChar (h.chars c hc), List.map_id']
  have hword : ∀ c word, isNumberChar c = false → cs ≠ c :: word := by
    rintro c word hc rfl
    rw [h.chars c List.mem_cons_self] at hc
    cases hc
  have hinfinity : ¬(cs = "inf".toList ∨ cs = "infinity".toList) :=
    not_or.mpr ⟨hword 'i' _ rfl, hword 'i' _ rfl⟩
  have hnan : cs ≠ "nan".toList := hword 'n' _ rfl
  have htake : cs.takeWhile (fun c => c.isDigit || c = '.') = cs :=
    List.takeWhile_eq_self_iff.mpr h.chars
  have hdrop : cs.dropWhile (fun c => c.isDigit || c = '.') = [] :=
    List.dropWhile_eq_nil_iff.mpr h.chars
  have hclamp : clampExponent cs.length 0 = 0 := by
    rw [clampExponent]
    omega
  rw [readMagnitude?]
  simp only [hfolded, htake, hdrop]
  rw [if_neg hinfinity, if_neg hnan, readPlain?_eq_some_iff.mpr ⟨h, rfl⟩]
  simp only [readExponent?, hclamp, Int.add_zero]
  rfl

theorem magnitudeText_infinity : magnitudeText infinityWord = "inf" := by
  rw [magnitudeText, if_neg (by decide), if_pos rfl]

theorem readMagnitude?_magnitudeText {w : Nat} (h : w ≤ infinityWord) :
    readMagnitude? (magnitudeText w).toList = some (ofWord false w) := by
  rcases Nat.lt_or_eq_of_le h with hlt | rfl
  · obtain ⟨hnumeral, hword⟩ := numeral_magnitudeText hlt
    rw [readMagnitude?_of_numeral hnumeral, hword]
  · rw [magnitudeText_infinity]
    rfl

theorem splitSign_magnitudeText {w : Nat} (h : w ≤ infinityWord) :
    splitSign (magnitudeText w).toList = (false, (magnitudeText w).toList) := by
  rcases Nat.lt_or_eq_of_le h with hlt | rfl
  · have hchars := (numeral_magnitudeText hlt).1.chars
    cases hcs : (magnitudeText w).toList with
    | nil => rfl
    | cons c cs =>
      have hc := hchars c (by rw [hcs]; exact List.mem_cons_self)
      unfold splitSign
      split
      · rename_i heq
        cases heq
        cases hc
      · rename_i heq
        cases heq
        cases hc
      · rfl
  · rw [magnitudeText_infinity]
    rfl

/-- **The text of a double is read as that double.** -/
theorem readSigned?_floatText (x : Float) : readSigned? (floatText x).toList = some x := by
  by_cases hnan : x.isNaN = true
  · rw [floatText, if_pos hnan]
    exact congrArg some (eq_of_isNaN (by decide) hnan)
  · have hle := magnitude_le_of_isNaN hnan
    have hx := ofWord_magnitude x
    rw [floatText, if_neg hnan]
    cases hsign : isNegative x with
    | false =>
      rw [hsign] at hx
      rw [if_neg Bool.false_ne_true, readSigned?]
      simp only [splitSign_magnitudeText hle, readMagnitude?_magnitudeText hle]
      exact congrArg some hx
    | true =>
      rw [hsign] at hx
      rw [if_pos rfl, String.toList_append]
      show (readMagnitude? (magnitudeText (magnitude x)).toList).map (fun y => -y) = some x
      rw [readMagnitude?_magnitudeText hle, Option.map_some, neg_ofWord hle, hx]

end Decimal
end FormulaLang
