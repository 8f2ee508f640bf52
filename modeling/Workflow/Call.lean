import Workflow.Graph

/-!
Calls: what can be asked of a graph, as data. A call comes back with an answer and leaves a graph,
so that a graph has a history, the list of the calls that were made on it.
-/

namespace Workflow

set_option autoImplicit false

inductive Call where
  | addNode (node : Node)
  | setJoin (node : Node) (join : Join)
  | addLink (source target : Node)
  | addLinkOn (source target : Node) (answer : Bool)
  | check
  | activate
deriving DecidableEq

/-- A call is done, or it is refused; a check can also come back with what it found. -/
inductive Answer where
  | done
  | refused (why : GraphError)
  | unsound (defects : List Defect)
deriving DecidableEq

/-- Does the call change the graph when it is done, short of activating it? -/
def Call.edits : Call → Bool
  | check => false
  | activate => false
  | _ => true

namespace Graph

/-- Go on with the next graph, or with the old one when there is none. -/
def adopt (g : Graph) : Except GraphError Graph → Answer × Graph
  | .ok next => (.done, next)
  | .error e => (.refused e, g)

def call (g : Graph) : Call → Answer × Graph
  | .addNode n => g.adopt (g.addNode n)
  | .setJoin n j => g.adopt (g.setJoin n j)
  | .addLink s t => g.adopt (g.addLink s t .unconditional)
  | .addLinkOn s t b => g.adopt (g.addLink s t (some b))
  | .check =>
    match g.check with
    | [] => (.done, g)
    | ds => (.unsound ds, g)
  | .activate => g.adopt g.activate

@[simp] theorem call_check_snd (g : Graph) : (g.call .check).2 = g := by
  simp only [call]
  split <;> rfl

/-- A call that is not done leaves the graph as it was. -/
theorem call_of_ne_done {g : Graph} {c : Call} (h : (g.call c).1 ≠ .done) : (g.call c).2 = g := by
  have hadopt : ∀ r, (g.adopt r).1 ≠ .done → (g.adopt r).2 = g := by
    intro r hr
    cases r with
    | ok next => exact absurd rfl hr
    | error e => rfl
  cases c with
  | check => exact call_check_snd g
  | _ => exact hadopt _ h

theorem call_active (p : Plan) (c : Call) :
    (active p).call c = (if c.edits then .refused .frozen else .done, active p) := by
  cases c with
  | check =>
    have h : (active p).check = [] := p.valid
    simp [call, h, Call.edits]
  | _ => rfl

theorem call_activate {d : Draft} (h : d.defects = []) :
    (building d).call .activate = (.done, active (d.compile h)) := by
  simp [call, activate, h, adopt]

theorem call_activate_refused {d : Draft} (h : d.defects ≠ []) :
    (building d).call .activate = (.refused (.invalid d.defects), building d) := by
  simp [call, activate, h, adopt]

/-- The graph after a list of calls. -/
def after (g : Graph) (cs : List Call) : Graph := cs.foldl (fun g c => (g.call c).2) g

@[simp] theorem after_nil (g : Graph) : g.after [] = g := rfl

@[simp] theorem after_cons (g : Graph) (c : Call) (cs : List Call) :
    g.after (c :: cs) = (g.call c).2.after cs := rfl

theorem after_append (g : Graph) (cs ds : List Call) :
    g.after (cs ++ ds) = (g.after cs).after ds := List.foldl_append

theorem after_active (p : Plan) (cs : List Call) : (active p).after cs = active p := by
  induction cs with
  | nil => rfl
  | cons c cs ih => rw [after_cons, call_active, ih]

end Graph
end Workflow
