import Workflow.Json.Encode
import Workflow.Json.Shape
import Workflow.OrderedMap

/-!
The data that the nodes of a computation share: JSON values under string keys, in the order in
which the keys were first stored. A key that holds null is present.
-/

namespace Workflow

set_option autoImplicit false

abbrev Context := OrderedMap String Json

namespace Context

def store (c : Context) (k : String) (v : Json) : Context := c.insert k v

/-- Store what an encoding gave; nothing is stored when it failed. -/
def storeEncoded (c : Context) (k : String) (v : Except Json.Unencodable Json) :
    Except Json.Unencodable Unit × Context :=
  match v with
  | .ok v => (.ok (), c.store k v)
  | .error e => (.error e, c)

def read (c : Context) (k : String) : Option Json := c.get? k

/-- Remove a key and give the value that it had. -/
def delete (c : Context) (k : String) : Option Json × Context := (c.read k, c.erase k)

/-- Read a value by a decoder; an absent key is not decoded. -/
def readAs {α : Type} (c : Context) (k : String) (decode : Json → Except Json.Mismatch α) :
    Option (Except Json.Mismatch α) :=
  (c.read k).map decode

def haveKey (c : Context) (k : String) : Bool := c.contains k

def len (c : Context) : Nat := c.size

def isEmpty (c : Context) : Bool := c.len == 0

/-- Equality of contexts takes no account of the order of the keys. -/
def same (c d : Context) : Bool := c.sameBy Json.same d

@[simp] theorem read_store (c : Context) (k j : String) (v : Json) :
    (c.store k v).read j = if j = k then some v else c.read j :=
  OrderedMap.get?_insert c k j v

@[simp] theorem read_delete (c : Context) (k j : String) :
    (c.delete k).2.read j = if j = k then none else c.read j :=
  OrderedMap.get?_erase c k j

theorem haveKey_eq_isSome (c : Context) (k : String) : c.haveKey k = (c.read k).isSome :=
  OrderedMap.contains_eq_isSome c k

end Context
end Workflow
