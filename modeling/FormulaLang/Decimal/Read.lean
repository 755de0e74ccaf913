import FormulaLang.Decimal.Basic

/-!
# FormulaLang.Decimal.Read

Reading numbers. A *plain* numeral has at least one digit and at most one point, anywhere
(`1`, `.5`, `1.`). A *signed* numeral may start with a sign, may end with a decimal exponent, and
may also spell infinity or a value that is not a number, in any case of letters. Both give the
nearest double, ties to even.
-/

namespace FormulaLang.Decimal

def readPlain? (cs : List Char) : Option Decimal :=
  let whole := cs.takeWhile Char.isDigit
  match cs.dropWhile Char.isDigit with
  | [] => if whole.isEmpty then none else some ⟨Nat.ofDigitChars 10 whole 0, 0⟩
  | c :: fraction =>
    if c = '.' ∧ fraction.all Char.isDigit ∧ ¬(whole.isEmpty ∧ fraction.isEmpty) then
      some ⟨Nat.ofDigitChars 10 (whole ++ fraction) 0, -(fraction.length : Int)⟩
    else none

def splitSign : List Char → Bool × List Char
  | '-' :: cs => (true, cs)
  | '+' :: cs => (false, cs)
  | cs => (false, cs)

/-- Reads the exponent that follows a numeral: nothing, or `e` with an optionally signed run of
digits. -/
def readExponent? : List Char → Option Int
  | [] => some 0
  | e :: cs =>
    let (negative, digits) := splitSign cs
    if (e = 'e' ∨ e = 'E') ∧ ¬digits.isEmpty ∧ digits.all Char.isDigit then
      let n : Int := Nat.ofDigitChars 10 digits 0
      some (if negative then -n else n)
    else none

/-- Cuts an exponent to what a numeral of `length` characters can tell apart: no double reaches
`10 ^ 400` or lies between zero and `10 ^ -400`, so any exponent outside the bounds has the same
result as the bound. -/
def clampExponent (length : Nat) (e : Int) : Int :=
  max (-(length + 400 : Int)) (min e (length + 400))

def readMagnitude? (cs : List Char) : Option Float :=
  let folded := cs.map Char.toLower
  if folded = "inf".toList ∨ folded = "infinity".toList then some (1.0 / 0.0)
  else if folded = "nan".toList then some (0.0 / 0.0)
  else
    let isMantissa := fun c : Char => c.isDigit || c = '.'
    match readPlain? (cs.takeWhile isMantissa), readExponent? (cs.dropWhile isMantissa) with
    | some d, some e =>
      some (Decimal.toFloat ⟨d.coefficient, d.exponent + clampExponent cs.length e⟩)
    | _, _ => none

def readSigned? (cs : List Char) : Option Float :=
  let (negative, rest) := splitSign cs
  (readMagnitude? rest).map fun x => if negative then -x else x

end FormulaLang.Decimal
