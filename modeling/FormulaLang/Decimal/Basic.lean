import FormulaLang.Binary64

/-!
# FormulaLang.Decimal.Basic

Decimal numbers `coefficient · 10 ^ exponent`, the double nearest to one, and its positional
text. The text has no exponent and no needless point: a positive exponent becomes zeros at the
end, a negative one a point with at least one digit before it.
-/

namespace FormulaLang

structure Decimal where
  coefficient : Nat
  exponent : Int
  deriving DecidableEq, Repr

namespace Decimal

/-- The magnitude word of the nearest double, ties to even. -/
def word (d : Decimal) : Nat :=
  if 0 ≤ d.exponent then Binary64.nearestWord (d.coefficient * 10 ^ d.exponent.toNat) 1
  else Binary64.nearestWord d.coefficient (10 ^ (-d.exponent).toNat)

def toFloat (d : Decimal) : Float := Binary64.ofWord false d.word

/-- Digits of `n`, with zeros in front so that more than `places` digits stand there. -/
def paddedDigits (places n : Nat) : List Char :=
  let digits := Nat.toDigits 10 n
  List.replicate (places + 1 - digits.length) '0' ++ digits

def text (d : Decimal) : String :=
  if 0 ≤ d.exponent then
    .ofList (Nat.toDigits 10 d.coefficient ++ List.replicate d.exponent.toNat '0')
  else
    let places := (-d.exponent).toNat
    let digits := paddedDigits places d.coefficient
    let whole := digits.length - places
    .ofList (digits.take whole ++ '.' :: digits.drop whole)

end Decimal

end FormulaLang
