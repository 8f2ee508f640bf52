import Workflow.Join
import Workflow.Node

/-!
Events: what graphs and computations tell an observer, as data and as the texts of a log line.
-/

namespace Workflow

set_option autoImplicit false

inductive Event where
  | checkFailed (errors : Nat)
  | activated (nodes links initial keys : Nat)
  | alreadyActivated
  | started (initial : Nat)
  | reached (node : Node) (join : Join) (verdict : Verdict) (tally : Tally)
  | completed (visited : Nat)
  | aborted (node : Node) (failure : Failure) (visited : Nat)
deriving DecidableEq, Repr

inductive Event.Level where
  | debug
  | trace
deriving DecidableEq, Repr

def Event.Level.name : Event.Level → String
  | debug => "DEBUG"
  | trace => "TRACE"

namespace Event

def level : Event → Level
  | alreadyActivated => .trace
  | reached .. => .trace
  | _ => .debug

/-- The start of a computation opens a span, every other event is a point in time. -/
def isSpan : Event → Bool
  | started _ => true
  | _ => false

def title : Event → String
  | checkFailed _ => "node system failed validation"
  | activated .. => "node system activated"
  | alreadyActivated => "node system already activated"
  | started _ => "computation"
  | reached .. => "node disposition"
  | completed _ => "computation completed"
  | aborted .. => "computation aborted"

def fields : Event → List (String × String)
  | checkFailed errors => [("errors", toString errors)]
  | activated nodes links initial keys =>
    [("nodes", toString nodes), ("links", toString links), ("initial", toString initial),
      ("keys", toString keys)]
  | alreadyActivated => []
  | started initial => [("initial", toString initial)]
  | reached node join verdict tally =>
    [("node", node.text), ("mode", join.name), ("disposition", verdict.name),
      ("ancestors", toString tally.total), ("known", toString tally.known),
      ("winning", toString tally.winning)]
  | completed visited => [("visited", toString visited)]
  | aborted node failure visited =>
    [("node", node.text), ("error", failure.message), ("visited", toString visited)]

end Event
end Workflow
