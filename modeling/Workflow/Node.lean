import Workflow.Context.Basic
import Workflow.Outcome

/-!
Nodes of a workflow. A `Node` is a handle: an identity, a name for messages, and whether the node is
a decision. What a node does when it runs, its `Body`, is kept apart and given to a computation for
all nodes at once.
-/

namespace Workflow

set_option autoImplicit false

structure Node where
  id : Nat
  name : String
  decides : Bool
deriving DecidableEq, Repr, Inhabited

namespace Node

def text (n : Node) : String := n.name ++ "#" ++ toString n.id

def debugText (n : Node) : String :=
  "NodeRef \x7b id: NodeId(" ++ toString n.id ++ "), name: " ++ Text.quote n.name ++
    ", decide: " ++ toString n.decides ++ " \x7d"

def outgoing (n : Node) : List Branch := Branch.outgoing n.decides

end Node

/-- A node at work: it reads and changes the context and comes to an outcome. -/
abbrev Body := Context → Outcome × Context

namespace Body

/-- Goes on when the work succeeds, aborts when it fails; what was done stays done. -/
def action (work : Context → Except Failure Unit × Context) : Body := fun c =>
  match work c with
  | (.ok (), d) => (.proceed none, d)
  | (.error f, d) => (.abort f, d)

/-- Goes on on the branch of its answer, and leaves the context alone. -/
def decision (answer : Context → Except Failure Bool) : Body := fun c =>
  match answer c with
  | .ok b => (.proceed (some b), c)
  | .error f => (.abort f, c)

def idle : Body := action fun c => (.ok (), c)

/-- Comes to the outcome that the work names, or aborts when it fails. -/
def custom (work : Context → Except Failure Outcome × Context) : Body := fun c =>
  match work c with
  | (.ok o, d) => (o, d)
  | (.error f, d) => (.abort f, d)

end Body
end Workflow
