import Workflow.Plan

/-!
A graph over its life. While it is being built, nodes, links and joins can be added and checks made
at any time; once activated it is a plan and stays as it is. An operation that is refused changes
nothing: it gives an error in place of the next graph.
-/

namespace Workflow

set_option autoImplicit false

inductive Graph where
  | building (draft : Draft)
  | active (plan : Plan)

instance : Inhabited Graph := ⟨.building {}⟩

inductive GraphError where
  | frozen
  | link (why : LinkError)
  | invalid (defects : List Defect)
  | notActivated
deriving DecidableEq

def defectsMessage (defects : List Defect) : String :=
  "\n".intercalate (defects.map Defect.message)

def GraphError.message : GraphError → String
  | frozen => "node system is activated and can no longer be modified"
  | link why => why.message
  | invalid defects => "node system is not valid:\n" ++ defectsMessage defects
  | notActivated => "node system is not activated"

namespace Graph

def empty : Graph := .building {}

def draft : Graph → Draft
  | building d => d
  | active p => p.toDraft

def nodes (g : Graph) : List Node := g.draft.nodes

def links (g : Graph) : List Link := g.draft.links

def joinOf (g : Graph) (n : Node) : Join := g.draft.joinOf n

def plan? : Graph → Option Plan
  | building _ => none
  | active p => some p

def isActive (g : Graph) : Bool := g.plan?.isSome

def edit (g : Graph) (change : Draft → Except GraphError Draft) : Except GraphError Graph :=
  match g with
  | building d => (change d).map building
  | active _ => .error .frozen

/-- Declare a node. That it was declared before is found when the graph is checked. -/
def addNode (g : Graph) (n : Node) : Except GraphError Graph := g.edit fun d => .ok (d.addNode n)

def setJoin (g : Graph) (n : Node) (j : Join) : Except GraphError Graph :=
  g.edit fun d => .ok (d.setJoin n j)

def addLink (g : Graph) (source target : Node) (b : Branch) : Except GraphError Graph :=
  g.edit fun d =>
    match Link.make (some source) (some target) b with
    | .ok l => .ok (d.addLink l)
    | .error e => .error (.link e)

/-- Everything that is wrong with the graph as it stands. -/
def check (g : Graph) : List Defect := g.draft.defects

/-- Freeze and compile a graph without defects; an active graph stays as it is. -/
def activate (g : Graph) : Except GraphError Graph :=
  match g with
  | active p => .ok (active p)
  | building d =>
    if h : d.defects = [] then .ok (active (d.compile h)) else .error (.invalid d.defects)

/-- The nodes without incoming links, none before activation. -/
def initial (g : Graph) : List Node :=
  match g with
  | building _ => []
  | active p => p.initial

def follow (g : Graph) (n : Node) (b : Branch) : Except GraphError (List Node) :=
  match g with
  | building _ => .error .notActivated
  | active p => .ok (p.follow n b)

def feeding (g : Graph) (n : Node) (b : Branch) : Except GraphError (List Node) :=
  match g with
  | building _ => .error .notActivated
  | active p => .ok (p.feeding n b)

end Graph
end Workflow
