import Workflow.Node

/-!
A catalog hands out nodes: every node that it declares has the next identity, so no two of its
nodes are the same. It also knows their bodies.
-/

namespace Workflow

set_option autoImplicit false

/-- One entry for each identity in use; an identity may be taken without a node. -/
structure Catalog where
  entries : List (Option (Node × Body)) := []

namespace Catalog

def nextId (c : Catalog) : Nat := c.entries.length

/-- Take the next identity for no node. -/
def reserve (c : Catalog) : Nat × Catalog := (c.nextId, ⟨c.entries ++ [none]⟩)

def declare (c : Catalog) (name : String) (decides : Bool) (body : Body) : Node × Catalog :=
  let n : Node := ⟨c.nextId, name, decides⟩
  (n, ⟨c.entries ++ [some (n, body)]⟩)

/-- The body of a node; a node from elsewhere does nothing. -/
def body (c : Catalog) (n : Node) : Body :=
  match c.entries[n.id]? with
  | some (some (m, b)) => if m = n then b else Body.idle
  | _ => Body.idle

theorem declare_id (c : Catalog) (name : String) (decides : Bool) (b : Body) :
    (c.declare name decides b).1.id = c.nextId := rfl

theorem nextId_declare (c : Catalog) (name : String) (decides : Bool) (b : Body) :
    (c.declare name decides b).2.nextId = c.nextId + 1 := by
  simp [declare, nextId]

/-- A new node differs from every node with an identity in use. -/
theorem declare_ne_of_lt (c : Catalog) (name : String) (decides : Bool) (b : Body) {n : Node}
    (h : n.id < c.nextId) : (c.declare name decides b).1 ≠ n := by
  rintro rfl
  exact Nat.lt_irrefl _ h

theorem body_declare (c : Catalog) (name : String) (decides : Bool) (b : Body) :
    (c.declare name decides b).2.body (c.declare name decides b).1 = b := by
  simp [declare, body, nextId]

/-- A node keeps its body when others are declared after it. -/
theorem body_declare_of_lt (c : Catalog) (name : String) (decides : Bool) (b : Body) {n : Node}
    (h : n.id < c.nextId) : (c.declare name decides b).2.body n = c.body n := by
  unfold nextId at h
  simp [declare, body, List.getElem?_append_left h]

end Catalog
end Workflow
