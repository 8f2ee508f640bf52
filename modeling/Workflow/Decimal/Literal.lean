/-!
Decimal literals as numbers. A literal keeps as many leading digits as fit in 64 bits; its value is
their double times a power of ten, reached by one multiplication or division. This is fast, and it
may miss the nearest double by its last places when the literal is long.
-/

namespace Workflow.Decimal

set_option autoImplicit false

/-- A literal with its sign, the digits before and after the point and the exponent. The fraction
and the exponent are missing when their mark is. -/
structure Literal where
  negative : Bool
  whole : List Char
  fraction : Option (List Char)
  exponent : Option Int
deriving DecidableEq, Repr

/-- Leading digits that fit in 64 bits, and the digits that do not. -/
def takeSignificand : Nat → List Char → Nat × List Char
  | n, [] => (n, [])
  | n, c :: cs =>
    let m := n * 10 + (c.toNat - '0'.toNat)
    if m < Nat.pow 2 64 then takeSignificand m cs else (n, c :: cs)

def powerOfTen (n : Nat) : Float := Float.ofScientific 1 false n

/-- Divide by a power of ten, in steps that stay within the range of doubles. -/
def divideByPower (x : Float) (n : Nat) : Float :=
  if n ≤ 308 then x / powerOfTen n
  else if x == 0 then x
  else divideByPower (x / powerOfTen 308) (n - 308)
termination_by n

/-- A significand times a power of ten; nothing when it lies beyond the largest double. -/
def scale (significand : Nat) (exponent : Int) : Option Float :=
  let x := (UInt64.ofNat significand).toFloat
  if exponent < 0 then some (divideByPower x exponent.natAbs)
  else if 308 < exponent then
    if significand = 0 then some x else none
  else
    let y := x * powerOfTen exponent.natAbs
    if y.isInf then none else some y

namespace Literal

/-- The kept digits of a literal and the power of ten that goes with them: each digit dropped
before the point counts one place up, each digit kept after it one place down. -/
def parts (l : Literal) : Nat × Int :=
  let (head, dropped) := takeSignificand 0 l.whole
  let fraction := l.fraction.getD []
  let (significand, rest) := takeSignificand head fraction
  let kept : Int := fraction.length - rest.length
  (significand, dropped.length - kept + l.exponent.getD 0)

def toFloat? (l : Literal) : Option Float :=
  (scale l.parts.1 l.parts.2).map fun x => if l.negative then -x else x

/-- The whole number that a literal without fraction and exponent is, if it fits in 64 bits;
minus zero is no whole number. -/
def toInt? (l : Literal) : Option Int :=
  match l.fraction, l.exponent with
  | none, none =>
    let n := Nat.ofDigitChars 10 l.whole 0
    if l.negative then
      if 0 < n ∧ n ≤ Nat.pow 2 63 then some (-n) else none
    else if n < Nat.pow 2 64 then some n
    else none
  | _, _ => none

end Literal
end Workflow.Decimal
