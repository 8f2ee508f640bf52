import Workflow.Json.Printer

/-!
Typed views of JSON values. A `Shape` says what a program wants to find; reading a value by a shape
gives the value in that shape's own form or the first mismatch met.
-/

namespace Workflow.Json

set_option autoImplicit false

/-- A whole-number type by its sign and its number of bits. -/
structure Width where
  signed : Bool
  bits : Nat
deriving DecidableEq, Repr

namespace Width

def u8 : Width := ⟨false, 8⟩
def u32 : Width := ⟨false, 32⟩
def u64 : Width := ⟨false, 64⟩
def i8 : Width := ⟨true, 8⟩
def i64 : Width := ⟨true, 64⟩

def name (w : Width) : String := (if w.signed then "i" else "u") ++ toString w.bits

def holds (w : Width) (n : Int) : Bool :=
  if w.signed then -Int.pow 2 (w.bits - 1) ≤ n && n < Int.pow 2 (w.bits - 1)
  else 0 ≤ n && n < Int.pow 2 w.bits

end Width

inductive Mismatch where
  | wrongKind (found : Json) (expected : String)
  | outOfRange (n : Int) (expected : String)
  | missingField (name : String)
  | tooShort (length : Nat) (record : String) (arity : Nat)
  | tooLong (length : Nat)

namespace Mismatch

def message : Mismatch → String
  | wrongKind found expected => "invalid type: " ++ found.noun ++ ", expected " ++ expected
  | outOfRange n expected => s!"invalid value: integer `{n}`, expected {expected}"
  | missingField name => s!"missing field `{name}`"
  | tooShort length record arity =>
    let elements := if arity = 1 then "element" else "elements"
    s!"invalid length {length}, expected struct {record} with {arity} {elements}"
  | tooLong length => s!"invalid length {length}, expected fewer elements in array"

end Mismatch

def asInt (w : Width) : Json → Except Mismatch Int
  | .int n => if w.holds n then .ok n else .error (.outOfRange n w.name)
  | v => .error (.wrongKind v w.name)

/-- Whole numbers count as floating-point numbers. -/
def asFloat : Json → Except Mismatch Float
  | .float x => .ok x
  | .int n => .ok (wholeFloat n)
  | v => .error (.wrongKind v "f64")

def asBool : Json → Except Mismatch Bool
  | .bool b => .ok b
  | v => .error (.wrongKind v "a boolean")

def asString : Json → Except Mismatch String
  | .str s => .ok s
  | v => .error (.wrongKind v "a string")

def asItems : Json → Except Mismatch (List Json)
  | .arr xs => .ok xs
  | v => .error (.wrongKind v "a sequence")

def asMembers : Json → Except Mismatch (List (String × Json))
  | .obj ms => .ok ms
  | v => .error (.wrongKind v "a map")

inductive Scalar where
  | int (w : Width)
  | float
  | bool
  | string
deriving DecidableEq, Repr

def Scalar.read (v : Json) : Scalar → Except Mismatch Json
  | .int w => (asInt w v).map .int
  | .float => (asFloat v).map .float
  | .bool => (asBool v).map .bool
  | .string => (asString v).map .str

/-- A record type: its name and its fields in order. -/
structure Record where
  name : String
  fields : List (String × Scalar)
deriving DecidableEq, Repr

namespace Record

def readMembers (r : Record) : List (String × Json) → Except Mismatch (List (String × Json))
  | [] => .ok []
  | (k, v) :: ms =>
    match r.fields.lookup k with
    | none => readMembers r ms
    | some shape => do
      let x ← shape.read v
      let xs ← readMembers r ms
      .ok ((k, x) :: xs)

def readItems : List (String × Scalar) → List Json → Except Mismatch (List (String × Json))
  | (k, shape) :: fields, v :: vs => do
    let x ← shape.read v
    let xs ← readItems fields vs
    .ok ((k, x) :: xs)
  | _, _ => .ok []

/-- A record is read from an object by its field names, from a list by position. -/
def read (r : Record) : Json → Except Mismatch Json
  | .obj ms => do
    let xs ← r.readMembers ms
    match r.fields.find? fun f => (xs.lookup f.1).isNone with
    | some f => .error (.missingField f.1)
    | none => .ok (ofMembers xs)
  | .arr vs => do
    let xs ← readItems r.fields vs
    if vs.length < r.fields.length then .error (.tooShort vs.length r.name r.fields.length)
    else if r.fields.length < vs.length then .error (.tooLong vs.length)
    else .ok (ofMembers xs)
  | v => .error (.wrongKind v ("struct " ++ r.name))

end Record

inductive Shape where
  | scalar (s : Scalar)
  | optional (s : Scalar)
  | listOf (s : Scalar)
  | mapOf (s : Scalar)
  | record (r : Record)
  | any
deriving DecidableEq, Repr

/-- The value in the shape's own form. Lists are read in order, maps in the order of their keys. -/
def Shape.read (v : Json) : Shape → Except Mismatch Json
  | .scalar s => s.read v
  | .optional s =>
    match v with
    | .null => .ok .null
    | v => s.read v
  | .listOf s => do
    let xs ← asItems v
    let ys ← xs.mapM fun x => s.read x
    .ok (.arr ys)
  | .mapOf s => do
    let ms ← asMembers v
    let ns ← ms.mapM fun m => do
      let y ← s.read m.2
      .ok (m.1, y)
    .ok (.obj ns)
  | .record r => r.read v
  | .any => .ok v

end Workflow.Json
