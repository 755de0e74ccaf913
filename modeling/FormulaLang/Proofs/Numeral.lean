import Mathlib
import FormulaLang.Decimal.Read
import FormulaLang.Token.Scan

/-!
# FormulaLang.Proofs.Numeral

Plain numerals, described without reading them: `Numeral` says which texts are numerals and
`numeral` which decimal one stands for. `readPlain?_eq_some_iff` proves that the reader accepts
exactly the numerals and gives exactly their decimals.
-/

namespace FormulaLang
namespace Decimal

/-- A plain numeral: digits and points only, at least one digit, at most one point. -/
structure Numeral (cs : List Char) : Prop where
  chars : ∀ c ∈ cs, isNumberChar c = true
  digit : ∃ c ∈ cs, c.isDigit = true
  point : cs.count '.' ≤ 1

/-- The decimal of a numeral: its digits without the point, scaled down by one power of ten for
each digit behind the point. -/
def numeral (cs : List Char) : Decimal :=
  ⟨Nat.ofDigitChars 10 (cs.filter Char.isDigit) 0, -((cs.dropWhile (· ≠ '.')).length - 1 : Nat)⟩

theorem ne_point_of_isDigit {c : Char} (h : c.isDigit = true) : c ≠ '.' := by
  rintro rfl
  revert h
  decide

theorem isNumberChar_of_isDigit {c : Char} (h : c.isDigit = true) : isNumberChar c = true := by
  simp [isNumberChar, h]

theorem isDigit_of_isNumberChar {c : Char} (h : isNumberChar c = true) (hc : c ≠ '.') :
    c.isDigit = true := by
  simpa [isNumberChar, hc] using h

theorem count_point_of_isDigit {cs : List Char} (h : ∀ c ∈ cs, c.isDigit = true) :
    cs.count '.' = 0 :=
  List.count_eq_zero.mpr fun hm => ne_point_of_isDigit (h _ hm) rfl

theorem dropWhile_ne_point {cs : List Char} (h : ∀ c ∈ cs, c.isDigit = true) (rest : List Char) :
    (cs ++ rest).dropWhile (· ≠ '.') = rest.dropWhile (· ≠ '.') := by
  rw [List.dropWhile_append_of_pos]
  intro c hc
  simpa using ne_point_of_isDigit (h c hc)

/-! ## The two shapes of a numeral -/

theorem numeral_digits {whole : List Char} (h : ∀ c ∈ whole, c.isDigit = true) :
    numeral whole = ⟨Nat.ofDigitChars 10 whole 0, 0⟩ := by
  have hdrop := dropWhile_ne_point h []
  simp only [List.append_nil, List.dropWhile_nil] at hdrop
  rw [numeral, hdrop, List.filter_eq_self.mpr h]
  rfl

theorem numeral_point {whole fraction : List Char} (hw : ∀ c ∈ whole, c.isDigit = true)
    (hf : ∀ c ∈ fraction, c.isDigit = true) :
    numeral (whole ++ '.' :: fraction) =
      ⟨Nat.ofDigitChars 10 (whole ++ fraction) 0, -(fraction.length : Int)⟩ := by
  have hp : Char.isDigit '.' = false := by decide
  rw [numeral, dropWhile_ne_point hw, List.filter_append, List.filter_cons_of_neg (by simp [hp]),
    List.filter_eq_self.mpr hw, List.filter_eq_self.mpr hf]
  simp

theorem numeral_digits_iff {whole : List Char} (h : ∀ c ∈ whole, c.isDigit = true) :
    Numeral whole ↔ whole ≠ [] := by
  constructor
  · rintro ⟨-, ⟨c, hc, -⟩, -⟩ rfl
    exact absurd hc List.not_mem_nil
  · intro hne
    obtain ⟨c, rest, rfl⟩ := List.exists_cons_of_ne_nil hne
    have hcount := count_point_of_isDigit h
    exact ⟨fun d hd => isNumberChar_of_isDigit (h d hd), ⟨c, List.mem_cons_self, h c List.mem_cons_self⟩,
      by omega⟩

theorem numeral_point_iff {whole fraction : List Char} (hw : ∀ c ∈ whole, c.isDigit = true) :
    Numeral (whole ++ '.' :: fraction) ↔
      (∀ c ∈ fraction, c.isDigit = true) ∧ ¬(whole = [] ∧ fraction = []) := by
  have hcount : (whole ++ '.' :: fraction).count '.' = fraction.count '.' + 1 := by
    rw [List.count_append, count_point_of_isDigit hw, List.count_cons_self, Nat.zero_add]
  constructor
  · rintro ⟨hchars, ⟨c, hc, hdigit⟩, hpoint⟩
    have hnone : '.' ∉ fraction := List.count_eq_zero.mp (by omega)
    refine ⟨fun d hd => isDigit_of_isNumberChar (hchars d (by simp [hd])) ?_, ?_⟩
    · rintro rfl
      exact hnone hd
    · rintro ⟨rfl, rfl⟩
      have : c = '.' := by simpa using hc
      exact ne_point_of_isDigit hdigit this
  · rintro ⟨hf, hne⟩
    refine ⟨?_, ?_, ?_⟩
    · intro c hc
      rcases List.mem_append.mp hc with hc | hc
      · exact isNumberChar_of_isDigit (hw c hc)
      · rcases List.mem_cons.mp hc with rfl | hc
        · decide
        · exact isNumberChar_of_isDigit (hf c hc)
    · cases whole with
      | cons c whole => exact ⟨c, by simp, hw c (by simp)⟩
      | nil =>
        cases fraction with
        | cons c fraction => exact ⟨c, by simp, hf c (by simp)⟩
        | nil => exact absurd ⟨rfl, rfl⟩ hne
    · have hnone := count_point_of_isDigit hf
      omega

/-- A text whose first character that is no digit is no point either is not a numeral. -/
theorem not_numeral {whole rest : List Char} {c : Char} (hd : c.isDigit = false) (hp : c ≠ '.') :
    ¬Numeral (whole ++ c :: rest) := by
  intro h
  have := isDigit_of_isNumberChar (h.chars c (by simp)) hp
  rw [hd] at this
  cases this

theorem readPlain?_eq_some_iff {cs : List Char} {d : Decimal} :
    readPlain? cs = some d ↔ Numeral cs ∧ d = numeral cs := by
  have hw : ∀ c ∈ cs.takeWhile Char.isDigit, c.isDigit = true :=
    List.all_eq_true.mp List.all_takeWhile
  have hsplit := List.takeWhile_append_dropWhile (p := Char.isDigit) (l := cs)
  have hhead := List.head?_dropWhile_not Char.isDigit cs
  unfold readPlain?
  generalize cs.takeWhile Char.isDigit = whole at hw hsplit
  cases htail : cs.dropWhile Char.isDigit with
  | nil =>
    rw [htail, List.append_nil] at hsplit
    subst hsplit
    rw [numeral_digits_iff hw, numeral_digits hw]
    cases whole <;> simp [eq_comm]
  | cons c fraction =>
    rw [htail] at hsplit hhead
    subst hsplit
    have hc : c.isDigit = false := by simpa using hhead
    by_cases hp : c = '.'
    · subst hp
      rw [numeral_point_iff hw]
      by_cases hf : ∀ c ∈ fraction, c.isDigit = true
      · rw [numeral_point hw hf]
        by_cases hne : whole = [] ∧ fraction = []
        · simp [hne]
        · have hall : fraction.all Char.isDigit = true := List.all_eq_true.mpr hf
          simp only [List.isEmpty_iff, hall, hne, not_false_eq_true, and_true, if_true,
            Option.some.injEq]
          exact ⟨fun h => ⟨hf, h.symm⟩, fun h => h.2.symm⟩
      · simp [hf]
    · simp [hp, not_numeral hc hp]

end Decimal
end FormulaLang
