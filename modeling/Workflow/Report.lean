import Workflow.Node
import Workflow.OrderedMap

/-!
Reports: the outcome of every node that was visited, in the order of the visits.
-/

namespace Workflow

set_option autoImplicit false

abbrev Report := OrderedMap Node Outcome

namespace Report

def record (r : Report) (n : Node) (o : Outcome) : Report := r.insert n o

/-- Reports with equal outcomes for the same nodes, in whatever order. -/
def same (r s : Report) : Bool := r.sameBy Outcome.same s

/-- One member for each node, keyed by the node's text. -/
def members (r : Report) : List (String × Json) :=
  OrderedMap.entries r |>.map fun e => (e.1.text, e.2.json)

def text (r : Report) : String := (Json.obj r.members).text

end Report
end Workflow
