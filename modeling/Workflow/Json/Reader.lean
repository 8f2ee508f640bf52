import Workflow.Decimal.Literal
import Workflow.Json.Basic
import Workflow.Json.Quoted

/-!
JSON text as values. Arrays and objects may nest `maxDepth` deep; the depth still allowed is what
the recursion runs on. A repeated member keeps its last value. A reader gives what it read and
the text after it.
-/

namespace Workflow.Json

set_option autoImplicit false

def maxDepth : Nat := 127

def isBlank (c : Char) : Bool := c = ' ' || c = '\n' || c = '\t' || c = '\r'

def skipBlanks (cs : List Char) : List Char := cs.dropWhile isBlank

def expected {α : Type} : List Char → Except Malformed (α × List Char)
  | [] => .error .unfinished
  | c :: _ => .error (.unexpected c)

/-- A run of digits, at least one. -/
def readDigits (cs : List Char) : Except Malformed (List Char × List Char) :=
  match cs.takeWhile Char.isDigit with
  | [] => .error .badNumber
  | ds => .ok (ds, cs.dropWhile Char.isDigit)

/-- The digits before the point; a zero stands alone. -/
def readWhole (cs : List Char) : Except Malformed (List Char × List Char) := do
  let (ds, rest) ← readDigits cs
  match ds with
  | '0' :: _ :: _ => .error .badNumber
  | _ => .ok (ds, rest)

def readFraction : List Char → Except Malformed (Option (List Char) × List Char)
  | '.' :: cs => do
    let (ds, rest) ← readDigits cs
    .ok (some ds, rest)
  | cs => .ok (none, cs)

def readSign : List Char → Bool × List Char
  | '-' :: cs => (true, cs)
  | '+' :: cs => (false, cs)
  | cs => (false, cs)

def readExponent : List Char → Except Malformed (Option Int × List Char)
  | c :: cs =>
    if c = 'e' ∨ c = 'E' then do
      let (negative, cs) := readSign cs
      let (ds, rest) ← readDigits cs
      let n : Int := Nat.ofDigitChars 10 ds 0
      .ok (some (if negative then -n else n), rest)
    else .ok (none, c :: cs)
  | [] => .ok (none, [])

def ofLiteral (l : Decimal.Literal) : Except Malformed Json :=
  match l.toInt? with
  | some n => .ok (.int n)
  | none =>
    match l.toFloat? with
    | some x => .ok (.float x)
    | none => .error .numberOutOfRange

def readNumber (cs : List Char) : Except Malformed (Json × List Char) := do
  let (negative, cs) := match cs with
    | '-' :: rest => (true, rest)
    | _ => (false, cs)
  let (whole, cs) ← readWhole cs
  let (fraction, cs) ← readFraction cs
  let (exponent, cs) ← readExponent cs
  let v ← ofLiteral ⟨negative, whole, fraction, exponent⟩
  .ok (v, cs)

/-- A value that is neither an array nor an object. -/
def readScalar : List Char → Except Malformed (Json × List Char)
  | 'n' :: 'u' :: 'l' :: 'l' :: rest => .ok (.null, rest)
  | 't' :: 'r' :: 'u' :: 'e' :: rest => .ok (.bool true, rest)
  | 'f' :: 'a' :: 'l' :: 's' :: 'e' :: rest => .ok (.bool false, rest)
  | '"' :: rest => do
    let (cs, rest) ← Quoted.decode rest
    .ok (.str (String.ofList cs), rest)
  | '-' :: rest => readNumber ('-' :: rest)
  | c :: rest => if c.isDigit then readNumber (c :: rest) else .error (.unexpected c)
  | [] => .error .unfinished

/-- Items separated by commas up to the closing character, at least one. Every item takes some of
the text, so its length bounds their number. -/
def readItems {α : Type} (item : List Char → Except Malformed (α × List Char)) (close : Char) :
    Nat → List Char → Except Malformed (List α × List Char)
  | 0, _ => .error .unfinished
  | n + 1, cs => do
    let (x, cs) ← item cs
    match skipBlanks cs with
    | [] => .error .unfinished
    | c :: rest =>
      if c = ',' then do
        let (xs, rest) ← readItems item close n rest
        .ok (x :: xs, rest)
      else if c = close then .ok ([x], rest)
      else .error (.unexpected c)

/-- What stands between an opening character and its closing one. -/
def readBetween {α : Type} (item : List Char → Except Malformed (α × List Char)) (close : Char)
    (cs : List Char) : Except Malformed (List α × List Char) :=
  match skipBlanks cs with
  | [] => .error .unfinished
  | c :: rest => if c = close then .ok ([], rest) else readItems item close cs.length cs

def readMember (value : List Char → Except Malformed (Json × List Char)) (cs : List Char) :
    Except Malformed ((String × Json) × List Char) :=
  match skipBlanks cs with
  | '"' :: rest => do
    let (k, rest) ← Quoted.decode rest
    match skipBlanks rest with
    | ':' :: rest => do
      let (v, rest) ← value rest
      .ok ((String.ofList k, v), rest)
    | rest => expected rest
  | rest => expected rest

/-- A value with arrays and objects at most so deep. -/
def readValue : Nat → List Char → Except Malformed (Json × List Char)
  | 0, cs =>
    match skipBlanks cs with
    | '[' :: _ => .error .tooDeep
    | '{' :: _ => .error .tooDeep
    | rest => readScalar rest
  | depth + 1, cs =>
    match skipBlanks cs with
    | '[' :: rest => do
      let (xs, rest) ← readBetween (readValue depth) ']' rest
      .ok (.arr xs, rest)
    | '{' :: rest => do
      let (ms, rest) ← readBetween (readMember (readValue depth)) '}' rest
      .ok (ofMembers ms, rest)
    | rest => readScalar rest

/-- Nothing but blanks may follow. -/
def finish {α : Type} : Except Malformed (α × List Char) → Except Malformed α
  | .error e => .error e
  | .ok (x, rest) => if (skipBlanks rest).isEmpty then .ok x else .error .trailing

def ofText (s : String) : Except Malformed Json :=
  finish (readValue maxDepth s.toList)

end Workflow.Json
