/-!
# FormulaLang.Binary64

Doubles as exact numbers. Without its sign bit, the 64-bit pattern of a double is a *magnitude
word* below `2 ^ 63`. Every finite double is a whole number of *units* of `2 ^ -1074`: `units`
reads that number off the word, and `roundUnits` finds the word whose units lie nearest to a
quotient, with ties going to the even word. Words grow with the number they denote, so rounding
can work on the word itself: the word with exponent shift `k` and significand `q` is
`k * 2 ^ 52 + q`, also where `q` carries into the next exponent.

What this module computes with exact integers is what core's `Float` has no operation for: the
remainder of a division, rounding to an integer with ties to even, and conversions to and from
natural numbers of any size.
-/

namespace FormulaLang.Binary64

-- A power of naturals is the core one, also where Mathlib brings powers of its own.
attribute [instance (1100), default_instance 20000] instPowNat

/-- The magnitude word of infinity. Greater words are not numbers. -/
def infinityWord : Nat := 2047 * 2 ^ 52

/-- How many units make one. -/
def one : Nat := 2 ^ 1074

def magnitude (x : Float) : Nat := x.toBits.toNat % 2 ^ 63

def isNegative (x : Float) : Bool := 2 ^ 63 ≤ x.toBits.toNat

def ofWord (negative : Bool) (word : Nat) : Float :=
  .ofBits (.ofNat (if negative then 2 ^ 63 + word else word))

/-- The number of units that a magnitude word stands for: below `2 ^ 53` it is the word itself,
above that the significand with its leading bit is shifted by the exponent. -/
def units (word : Nat) : Nat :=
  if word < 2 ^ 53 then word else (2 ^ 52 + word % 2 ^ 52) * 2 ^ (word / 2 ^ 52 - 1)

def roundHalfEven (num den : Nat) : Nat :=
  let q := num / den
  let r := num % den
  if 2 * r < den then q else if den < 2 * r then q + 1 else q + q % 2

/-- The magnitude word nearest to `num / den` units. A quotient that rounds beyond the greatest
finite double is infinite. -/
def roundUnits (num den : Nat) : Nat :=
  let shift := (num / den).log2 - 52
  min infinityWord (shift * 2 ^ 52 + roundHalfEven num (den * 2 ^ shift))

def nearestWord (num den : Nat) : Nat := roundUnits (num * one) den

def ofNat (n : Nat) : Float := ofWord false (nearestWord n 1)

def wholePart (x : Float) : Nat := units (magnitude x) / one

def roundTiesEven (x : Float) : Float :=
  if infinityWord ≤ magnitude x then x
  -- the sign stays, also that of a zero
  else ofWord (isNegative x) (nearestWord (roundHalfEven (units (magnitude x)) one) 1)

/-- What is left of `x` after taking away whole multiples of `y` toward zero; it has the sign of
`x`. Both operands are whole numbers of units, so the remainder is one as well and is exact. -/
def remainder (x y : Float) : Float :=
  if x.isNaN || y.isNaN || magnitude x = infinityWord || magnitude y = 0 then 0.0 / 0.0
  else if magnitude y = infinityWord then x
  else ofWord (isNegative x) (roundUnits (units (magnitude x) % units (magnitude y)) 1)

end FormulaLang.Binary64
