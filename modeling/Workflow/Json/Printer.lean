import Workflow.Decimal.Shortest
import Workflow.Json.Basic
import Workflow.Json.Quoted
import Workflow.Text.Quoted

/-!
JSON values as text, without blanks, members in the order in which they stand. A floating-point
number always shows a point or an exponent, so that it reads back as one.
-/

namespace Workflow.Json

set_option autoImplicit false

/-- Numbers whose leading digit stands for at least `10 ^ plainFrom` and less than
`10 ^ plainBelow` are written out, the others with an exponent. -/
structure NumberFormat where
  plainFrom : Int
  plainBelow : Int
deriving DecidableEq, Repr

def numberFormat : NumberFormat := ⟨-5, 16⟩

def wholeChars (n : Int) : List Char :=
  if n < 0 then '-' :: Nat.toDigits 10 n.natAbs else Nat.toDigits 10 n.natAbs

/-- Move factors of ten from the digits to the exponent. -/
def trimZeros (digits : List Char) (exponent : Int) : List Char × Int :=
  let kept := (digits.reverse.dropWhile (· = '0')).reverse
  (kept, exponent + (digits.length - kept.length))

/-- Digits without trailing zeros, times a power of ten. -/
def layout (format : NumberFormat) (digits : List Char) (exponent : Int) : List Char :=
  let point : Int := digits.length + exponent
  if format.plainFrom < point ∧ point ≤ format.plainBelow then
    if 0 ≤ exponent then
      digits ++ List.replicate exponent.toNat '0' ++ ['.', '0']
    else if 0 < point then
      digits.take point.toNat ++ ['.'] ++ digits.drop point.toNat
    else
      ['0', '.'] ++ List.replicate (-point).toNat '0' ++ digits
  else
    let sign := if point ≤ 0 then '-' else '+'
    let fraction := match digits.drop 1 with
      | [] => []
      | ds => '.' :: ds
    digits.take 1 ++ fraction ++ ['e', sign] ++ Nat.toDigits 10 (point - 1).natAbs

example : String.ofList (layout numberFormat ['1'] 16) = "1e+16" := by decide

example : String.ofList (layout numberFormat ['1', '5'] 14) = "1500000000000000.0" := by decide

example : String.ofList (layout numberFormat ['1', '2', '5'] (-1)) = "12.5" := by decide

example : String.ofList (layout numberFormat ['1'] (-5)) = "0.00001" := by decide

example : String.ofList (layout numberFormat ['1', '5'] (-7)) = "1.5e-6" := by decide

/-- A finite number by its shortest digits. -/
def floatChars (x : Float) : List Char :=
  let bits := x.toBits
  let negative := bits >>> 63 = 1
  let magnitude := Decimal.Binary.ofBits bits
  let body :=
    if magnitude.mantissa = 0 then ['0', '.', '0']
    else
      let d := magnitude.shortest
      let (digits, exponent) := trimZeros (Nat.toDigits 10 d.digits) d.exponent
      layout numberFormat digits exponent
  if negative then '-' :: body else body

def quotedChars (s : String) : List Char := '"' :: Quoted.encode s.toList ++ ['"']

mutual

def chars : Json → List Char
  | .null => ['n', 'u', 'l', 'l']
  | .bool true => ['t', 'r', 'u', 'e']
  | .bool false => ['f', 'a', 'l', 's', 'e']
  | .int n => wholeChars n
  | .float x => floatChars x
  | .str s => quotedChars s
  | .arr [] => ['[', ']']
  | .arr (x :: xs) => '[' :: (chars x ++ restChars xs)
  | .obj [] => ['{', '}']
  | .obj ((k, x) :: ms) => '{' :: (quotedChars k ++ ':' :: (chars x ++ restMembers ms))

/-- The elements after the first, and the closing bracket. -/
def restChars : List Json → List Char
  | [] => [']']
  | x :: xs => ',' :: (chars x ++ restChars xs)

/-- The members after the first, and the closing brace. -/
def restMembers : List (String × Json) → List Char
  | [] => ['}']
  | (k, x) :: ms => ',' :: (quotedChars k ++ ':' :: (chars x ++ restMembers ms))

end

def text (v : Json) : String := String.ofList v.chars

/-- A value as an error message names it: a scalar is shown, a container is not. -/
def noun : Json → String
  | .null => "null"
  | .bool b => s!"boolean `{b}`"
  | .int n => s!"integer `{n}`"
  | .float x => "floating point `" ++ String.ofList (floatChars x) ++ "`"
  | .str s => "string " ++ Text.quote s
  | .arr _ => "sequence"
  | .obj _ => "map"

end Workflow.Json
