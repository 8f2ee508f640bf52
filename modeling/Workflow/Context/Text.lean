import Workflow.Context.Basic
import Workflow.Json.Reader

/-!
Contexts as JSON objects: written in their own order or sorted, and loaded from a value, whose
members arrive sorted, or from a text, whose members arrive in the order of the text.
-/

namespace Workflow.Context

set_option autoImplicit false

/-- Why something is no context. -/
inductive LoadError where
  | notObject (found : Json)
  | malformed (why : Json.Malformed)

def LoadError.message : LoadError → String
  | notObject found => (Json.Mismatch.wrongKind found "a map").message
  | malformed _ => "malformed text"

def ofJson : Json → Except LoadError Context
  | .obj ms => .ok (OrderedMap.ofList ms)
  | v => .error (.notObject v)

/-- A text that does not start with a brace is judged by its first token alone: a scalar is read
and named, an opening bracket is a sequence whatever follows. -/
def ofText (s : String) : Except LoadError Context :=
  match Json.skipBlanks s.toList with
  | '{' :: rest =>
    match Json.finish
      (Json.readBetween (Json.readMember (Json.readValue (Json.maxDepth - 1))) '}' rest) with
    | .ok ms => .ok (OrderedMap.ofList ms)
    | .error e => .error (.malformed e)
  | '[' :: _ => .error (.notObject (.arr []))
  | cs =>
    match Json.readScalar cs with
    | .ok (v, _) => .error (.notObject v)
    | .error e => .error (.malformed e)

/-- The members in the context's own order. -/
def text (c : Context) : String := (Json.obj c.entries).text

/-- The context as a value, with sorted members. -/
def toJson (c : Context) : Json := Json.ofMembers c.entries

end Workflow.Context
