import Workflow.Branch
import Workflow.Json.Printer

/-!
What visiting a node came to. A node that ran goes on, a decision on the branch of its answer; a
node that was not allowed to run is skipped; a node that failed aborts the computation.
-/

namespace Workflow

set_option autoImplicit false

/-- The error of a node: its message, and the messages of the errors behind it. -/
structure Failure where
  message : String
  sources : List String := []
deriving DecidableEq, Repr, Inhabited

namespace Failure

def ofChain : List String → Failure
  | [] => ⟨"", []⟩
  | m :: ms => ⟨m, ms⟩

/-- Failures are told apart by their message alone. -/
def same (f g : Failure) : Bool := f.message == g.message

def debugText (f : Failure) : String := "NodeError(" ++ Text.quote f.message ++ ")"

end Failure

inductive Outcome where
  | proceed (branch : Branch)
  | skip
  | abort (failure : Failure)
deriving DecidableEq, Repr, Inhabited

namespace Outcome

def kind : Outcome → String
  | proceed _ => "continue"
  | skip => "skip"
  | abort _ => "abort"

def branch : Outcome → Branch
  | proceed b => b
  | _ => none

def failure? : Outcome → Option Failure
  | abort f => some f
  | _ => none

def isProceed : Outcome → Bool
  | proceed _ => true
  | _ => false

def isAbort : Outcome → Bool
  | abort _ => true
  | _ => false

/-- Does the outcome let a link tagged `tag` fire? -/
def continuesOn (o : Outcome) (tag : Branch) : Bool :=
  match o with
  | proceed b => b == tag
  | _ => false

def same : Outcome → Outcome → Bool
  | proceed a, proceed b => a == b
  | skip, skip => true
  | abort f, abort g => f.same g
  | _, _ => false

def text : Outcome → String
  | proceed none => "continue"
  | proceed (some b) => s!"continue({b})"
  | skip => "skip"
  | abort f => "abort(" ++ f.message ++ ")"

def branchJson : Branch → Json
  | none => .null
  | some b => .bool b

/-- The outcome as a flat record. -/
def members (o : Outcome) : List (String × Json) :=
  [("value", .str o.kind), ("branch", branchJson o.branch),
    ("error", Json.ofOption (o.failure?.map fun f => .str f.message))]

def json (o : Outcome) : Json := .obj o.members

theorem continuesOn_iff {o : Outcome} {tag : Branch} :
    o.continuesOn tag = true ↔ o = proceed tag := by
  cases o <;> simp [continuesOn]

theorem isAbort_iff {o : Outcome} : o.isAbort = true ↔ ∃ f, o = abort f := by
  cases o <;> simp [isAbort]

theorem same_refl (o : Outcome) : o.same o = true := by
  cases o <;> simp [same, Failure.same]

end Outcome
end Workflow
