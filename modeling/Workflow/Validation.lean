import Workflow.Digraph.Search
import Workflow.Link
import Workflow.OrderedMap

/-!
What can be wrong with a list of nodes and a list of links. Four checks look for decisions that
lead nowhere, for cycles, for links to nodes that are not declared, and for nodes declared twice;
each is made whatever the others find.
-/

namespace Workflow

set_option autoImplicit false

inductive Defect where
  | orphanDecision (node : Node)
  | cycle (links : List Link)
  | undeclared (node : Node) (link : Link)
  | duplicate (node : Node)
deriving DecidableEq

def Defect.message : Defect → String
  | orphanDecision node => "decision node `" ++ node.text ++ "` has no outgoing link"
  | cycle links => "cycle detected: " ++ ", ".intercalate (links.map Link.text)
  | undeclared node link =>
    "link " ++ link.text ++ " references undeclared node `" ++ node.text ++ "`"
  | duplicate node => "node `" ++ node.text ++ "` is declared more than once"

namespace Validation

/-- Decisions that are the source of no link, every declaration of them. -/
def orphans (nodes : List Node) (links : List Link) : List Node :=
  nodes.filter fun n => n.decides && !(links.map Link.source).contains n

/-- The links as edges. Their positions tell equal links apart. -/
def linkGraph (links : List Link) : Digraph Node (Link × Nat) :=
  ⟨links.zipIdx, fun e => e.1.source, fun e => e.1.target⟩

def cycles (links : List Link) : List (List Link) :=
  (linkGraph links).cycles.map fun c => c.map Prod.fst

/-- The ends of links that are not among the nodes, each with its link. -/
def undeclared (nodes : List Node) (links : List Link) : List (Node × Link) :=
  links.flatMap fun l =>
    ([l.source, l.target].filter fun n => !nodes.contains n).map fun n => (n, l)

/-- How often each node is declared, in the order of the first declarations. -/
def counts (nodes : List Node) : OrderedMap Node Nat :=
  nodes.foldl (fun m n => m.alter n fun c => c.getD 0 + 1) ∅

def duplicates (nodes : List Node) : List Node :=
  ((counts nodes).entries.filter fun e => 1 < e.2).map Prod.fst

end Validation

open Validation in
def defects (nodes : List Node) (links : List Link) : List Defect :=
  (orphans nodes links).map .orphanDecision ++ (cycles links).map .cycle ++
    (undeclared nodes links).map (fun e => .undeclared e.1 e.2) ++
    (duplicates nodes).map .duplicate

end Workflow
