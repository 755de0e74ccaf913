import FormulaLang.Decimal.Basic

/-!
# FormulaLang.Decimal.Shortest

The text of a double: the fewest significant digits that read back as the same double, and of
those the digits nearest to its exact value.

A unit is `2 ^ -1074 = 5 ^ 1074 · 10 ^ -1074`, so the exact value of a double with `u` units is the
decimal `u · 5 ^ 1074 · 10 ^ -1074`. Dropping its last `k` digits gives the value's lower neighbour
on the grid of multiples of `10 ^ (k - 1074)`; the next multiple is the upper one. The search goes
from the coarsest grid to the finest, which holds the exact value, and takes the first grid where
a neighbour reads back.
-/

namespace FormulaLang.Decimal

def finest : Int := -1074

def exact (word : Nat) : Nat := Binary64.units word * 5 ^ 1074

/-- Searches the grids that drop `n` digits of `value` or fewer for a decimal that reads back as
`word`. Where both neighbours do, the nearer one is taken, and the upper one if they are equally
near. -/
def search (word value : Nat) : Nat → Decimal
  | 0 => ⟨value, finest⟩
  | n + 1 =>
    let step := 10 ^ (n + 1)
    let lower : Decimal := ⟨value / step, finest + (n + 1 : Nat)⟩
    let upper : Decimal := ⟨value / step + 1, finest + (n + 1 : Nat)⟩
    if lower.word = word then
      if upper.word = word then
        if 2 * (value % step) < step then lower else upper
      else lower
    else if upper.word = word then upper
    else search word value n

/-- At least the number of decimal digits of `n`, and at most one more: a bit is worth less than
`0.30103` digits. -/
def digitBound (n : Nat) : Nat := (n.log2 + 1) * 30103 / 100000 + 1

def shortest (word : Nat) : Decimal := search word (exact word) (digitBound (exact word))

def magnitudeText (word : Nat) : String :=
  if word = 0 then "0"
  else if word = Binary64.infinityWord then "inf"
  else (shortest word).text

def floatText (x : Float) : String :=
  if x.isNaN then "NaN"
  else if Binary64.isNegative x then "-" ++ magnitudeText (Binary64.magnitude x)
  else magnitudeText (Binary64.magnitude x)

end FormulaLang.Decimal
