import FormulaLang.Binary64

/-!
# FormulaLang.Evaluation.Count

How numbers are read where a truth value, a number of rounds or a number of digits is wanted, and
the names of loop counters.
-/

namespace FormulaLang

/-- Every value but zero counts as true, also one that is not a number. -/
def isTruthy (x : Float) : Bool := x != 0.0

def maxIterations : Nat := 2 ^ 64 - 1

/-- The number of rounds of a counted loop: the value without its fraction, nothing for negative
values and for what is not a number, and never more than `maxIterations`. -/
def iterationCount (x : Float) : Nat :=
  if x.isNaN || Binary64.isNegative x then 0 else min (Binary64.wholePart x) maxIterations

def maxDigits : Nat := 15

/-- The number of fractional digits to round to: the value without its fraction, if that lies
between zero and `maxDigits`. -/
def roundingDigits (x : Float) : Option Nat :=
  let n := Binary64.wholePart x
  if x.isNaN then none
  else if n = 0 then some 0
  else if Binary64.isNegative x || maxDigits < n then none
  else some n

def counterName (depth : Nat) : String :=
  if depth ≤ 1 then "iter" else "iter" ++ depth.repr

end FormulaLang
