import FormulaLang.Evaluation.Count
import FormulaLang.Evaluation.Error

/-!
# FormulaLang.Evaluation.Arithmetic

What operators and mathematical functions compute. Arithmetic is that of doubles; the only
operators that fail are division and remainder, for a right operand that is a zero of either sign.
-/

namespace FormulaLang

def truth (b : Bool) : Float := if b then 1.0 else 0.0

def Operator.apply (op : Operator) (x y : Float) : Except EvalError Float :=
  match op with
  | .add => .ok (x + y)
  | .sub => .ok (x - y)
  | .mul => .ok (x * y)
  | .div => if y == 0.0 then .error (.divisionByZero .div) else .ok (x / y)
  | .rem => if y == 0.0 then .error (.divisionByZero .rem) else .ok (Binary64.remainder x y)
  | .pow => .ok (x.pow y)
  | .eq => .ok (truth (x == y))
  | .ne => .ok (truth (x != y))
  | .lt => .ok (truth (x < y))
  | .le => .ok (truth (x ≤ y))
  | .gt => .ok (truth (y < x))
  | .ge => .ok (truth (y ≤ x))

inductive MathFunction where
  | max | min | abs | sqrt | pow | sin | cos | tan | log | exp | round | ceil | floor | sign
  deriving DecidableEq, Repr

namespace MathFunction

/-- The greater operand; of one that is not a number the other is the greater. -/
def greater (x y : Float) : Float :=
  if x.isNaN then y else if y.isNaN then x else if x < y then y else x

def lesser (x y : Float) : Float :=
  if x.isNaN then y else if y.isNaN then x else if y < x then y else x

/-- The logarithm to a base. No power of the bases one, zero and infinity is another number than
one, and every power of one is one, so these have no logarithms but that of one. -/
def logBase (x base : Float) : Float :=
  if base == 1.0 || (x != 1.0 && (base == 0.0 || base == 1.0 / 0.0)) then 0.0 / 0.0
  else x.log / base.log

/-- Doubles from here on are whole numbers, and scaling them could only lose digits. -/
def unroundable : Float := 1e16

def roundTo (digits : Nat) (x : Float) : Float :=
  if digits = 0 then Binary64.roundTiesEven x
  else if unroundable ≤ x.abs then x
  else
    let scale := Binary64.ofNat (10 ^ digits)
    Binary64.roundTiesEven (x * scale) / scale

def signOf (x : Float) : Float :=
  if x == 0.0 then 0.0 else if x < 0.0 then -1.0 else if 0.0 < x then 1.0 else x

/-- The value of a function at its arguments. `log` and `round` read a second argument if there is
one. -/
def apply : MathFunction → List Float → Except EvalError Float
  | max, x :: y :: _ => .ok (greater x y)
  | min, x :: y :: _ => .ok (lesser x y)
  | abs, x :: _ => .ok x.abs
  | sqrt, x :: _ => .ok x.sqrt
  | pow, x :: y :: _ => .ok (x.pow y)
  | sin, x :: _ => .ok x.sin
  | cos, x :: _ => .ok x.cos
  | tan, x :: _ => .ok x.tan
  | log, [x] => .ok x.log
  | log, x :: base :: _ => .ok (logBase x base)
  | exp, x :: _ => .ok x.exp
  | round, [x] => .ok (roundTo 0 x)
  | round, x :: digits :: _ =>
    match roundingDigits digits with
    | some n => .ok (roundTo n x)
    | none => .error (.digitCount digits)
  | ceil, x :: _ => .ok x.ceil
  | floor, x :: _ => .ok x.floor
  | sign, x :: _ => .ok (signOf x)
  | _, _ => .error .missingArgument

end MathFunction

end FormulaLang
