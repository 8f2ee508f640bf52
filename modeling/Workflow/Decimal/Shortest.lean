/-!
The shortest decimal of a binary floating-point number: of all decimals that read back as the
number, one with the fewest digits, and of those the nearest. Everything is exact arithmetic on
the number's mantissa and exponent; the coarsest decimal grid with a point that reads back wins.
-/

namespace Workflow.Decimal

set_option autoImplicit false

/-- The number `digits * 10 ^ exponent`. -/
structure Scientific where
  digits : Nat
  exponent : Int
deriving DecidableEq, Repr

/-- The number `mantissa * 2 ^ exponent`. Below a power of two the numbers lie half as far apart
as above it, which `powerOfTwo` marks. -/
structure Binary where
  mantissa : Nat
  exponent : Int
  powerOfTwo : Bool
deriving DecidableEq, Repr

namespace Binary

/-- The magnitude of a finite double. -/
def ofBits (bits : UInt64) : Binary :=
  let biased := (bits >>> 52).toNat % 2048
  let fraction := bits.toNat % Nat.pow 2 52
  if biased = 0 then ⟨fraction, -1074, false⟩
  else ⟨Nat.pow 2 52 + fraction, biased - 1075, fraction = 0 && 1 < biased⟩

/-- Both sides of a comparison of `n` quarters of the last binary place with a decimal, brought
to whole numbers. -/
def quarters (x : Binary) (grid : Int) (n : Nat) : Nat :=
  n * Nat.pow 2 (x.exponent - 2).toNat * Nat.pow 10 (-grid).toNat

def gridUnit (x : Binary) (grid : Int) : Nat :=
  Nat.pow 10 grid.toNat * Nat.pow 2 (2 - x.exponent).toNat

/-- Does the point `d` of the grid round to `x`? The ends of the interval belong to an even
mantissa. -/
def readsBack (x : Binary) (grid : Int) (d : Nat) : Bool :=
  let point := d * x.gridUnit grid
  let low := x.quarters grid (4 * x.mantissa - if x.powerOfTwo then 1 else 2)
  let high := x.quarters grid (4 * x.mantissa + 2)
  if x.mantissa % 2 = 0 then low ≤ point && point ≤ high else low < point && point < high

/-- The point of the grid `10 ^ grid` nearest to `x` among its two neighbours that read back as
`x`; of two equally near ones the even one. -/
def onGrid (x : Binary) (grid : Int) : Option Scientific :=
  let value := x.quarters grid (4 * x.mantissa)
  let unit := x.gridUnit grid
  let below := value / unit
  let above := below + 1
  let nearBelow := match compare (2 * (value % unit)) unit with
    | .lt => true
    | .gt => false
    | .eq => below % 2 = 0
  match x.readsBack grid below, x.readsBack grid above with
  | true, true => some ⟨if nearBelow then below else above, grid⟩
  | true, false => some ⟨below, grid⟩
  | false, true => some ⟨above, grid⟩
  | false, false => none

/-- A grid no finer than the one of the leading digit. -/
def topGrid (x : Binary) : Int :=
  (((Nat.log2 x.mantissa : Int) + x.exponent) * 30103).fdiv 100000 + 1

/-- The shortest decimal. Seventeen digits always suffice, so twenty grids from the top hold it;
the exact value stands in should they not. -/
def shortest (x : Binary) : Scientific :=
  match (List.range 20).findSome? fun i : Nat => x.onGrid (x.topGrid - (i : Int)) with
  | some d => d
  | none =>
    ⟨x.mantissa * Nat.pow 2 x.exponent.toNat * Nat.pow 5 (-x.exponent).toNat,
      -(-x.exponent).toNat⟩

end Binary
end Workflow.Decimal
