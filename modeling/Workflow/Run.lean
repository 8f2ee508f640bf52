import Workflow.Graph
import Workflow.Traversal

/-!
Runs: one traversal of an active graph against one context. A run computes once; it keeps what was
written to the context and the report also when it was aborted.
-/

namespace Workflow

set_option autoImplicit false

inductive RunError where
  | notActivated
  | alreadyComputed
  | aborted (node : Node) (failure : Failure)
  | graph (why : GraphError)
deriving DecidableEq

namespace RunError

def message : RunError → String
  | notActivated => "computation requires an activated node system"
  | alreadyComputed => "computation has already been run"
  | aborted _ failure => failure.message
  | graph why => why.message

def failure? : RunError → Option Failure
  | aborted _ failure => some failure
  | _ => none

/-- The messages of the errors behind an error, the nearest first. -/
def chain (e : RunError) : List String :=
  match e.failure? with
  | some f => f.message :: f.sources
  | none => []

/-- Errors are equal when they are of one kind and about equal things; a failure counts by its
message. -/
def same : RunError → RunError → Bool
  | notActivated, notActivated => true
  | alreadyComputed, alreadyComputed => true
  | aborted n f, aborted m g => n.id == m.id && n.text == m.text && f.same g
  | graph e, graph f => e == f
  | _, _ => false

end RunError

structure Run where
  plan : Plan
  progress : Progress
  computed : Bool
  completed : Bool

namespace Run

/-- A run that has not computed. -/
def ofPlan (p : Plan) (c : Context) : Run := ⟨p, .ofContext c, false, false⟩

/-- Prepare a run; the graph has to be active. -/
def start (g : Graph) (c : Context) : Except RunError Run :=
  match g with
  | .building _ => .error .notActivated
  | .active p => .ok (ofPlan p c)

def context (r : Run) : Context := r.progress.context

def report (r : Run) : Report := r.progress.report

def log (r : Run) : List Event := r.progress.log

def outcomeOf (r : Run) (n : Node) : Option Outcome := r.report.get? n

/-- Traverse the plan from its initial nodes. A second call is refused and changes nothing. -/
def compute (body : Node → Body) (r : Run) : Except RunError Unit × Run :=
  if r.computed then (.error .alreadyComputed, r)
  else
    let start := r.progress.tell (.started r.plan.initial.length)
    match r.plan.traverse body r.plan.initial start with
    | (none, s) =>
      (.ok (), { r with
        progress := s.tell (.completed s.report.size), computed := true, completed := true })
    | (some a, s) =>
      (.error (.aborted a.node a.failure), { r with
        progress := s.tell (.aborted a.node a.failure s.report.size), computed := true })

end Run

namespace Graph

def checkLog (g : Graph) : List Event :=
  match g.check with
  | [] => []
  | ds => [.checkFailed ds.length]

def activateLog (g : Graph) : List Event :=
  match g with
  | active _ => [.alreadyActivated]
  | building d =>
    match g.activate with
    | .ok (active p) =>
      [.activated d.nodes.length d.links.length p.initial.length p.followers.size]
    | _ => g.checkLog

end Graph
end Workflow
