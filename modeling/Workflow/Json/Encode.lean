import Workflow.Json.Printer

/-!
Data that is turned into JSON before it is stored: numbers wider than a JSON number and maps whose
keys are not strings. Both can fail.
-/

namespace Workflow.Json

set_option autoImplicit false

/-- Why data has no JSON value. -/
inductive Unencodable where
  | numberOutOfRange
  | keyNotString
deriving DecidableEq, Repr

def Unencodable.message : Unencodable → String
  | numberOutOfRange => "number out of range"
  | keyNotString => "key must be a string"

/-- A whole number has to fit in 64 bits, signed or not. -/
def encodeInt (n : Int) : Except Unencodable Json :=
  if -Int.pow 2 63 ≤ n ∧ n < Int.pow 2 64 then .ok (.int n) else .error .numberOutOfRange

/-- The key that stands for a scalar. -/
def encodeKey : Json → Except Unencodable String
  | .str s => .ok s
  | .int n => .ok (String.ofList (wholeChars n))
  | .bool b => .ok (toString b)
  | _ => .error .keyNotString

def encodeMap (entries : List (Json × Json)) : Except Unencodable Json := do
  let ms ← entries.mapM fun e => do
    let k ← encodeKey e.1
    .ok (k, e.2)
  .ok (ofMembers ms)

end Workflow.Json
