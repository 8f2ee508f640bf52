import Workflow.Link
import Workflow.OrderedMap

/-!
Links indexed by node and branch. An index is built link by link; a look-up gives, in the order of
the links, the nodes at the other ends of the links that match.
-/

namespace Workflow

set_option autoImplicit false

abbrev Adjacency := OrderedMap (Node × Branch) (List Node)

namespace Adjacency

def push (a : Adjacency) (n : Node) (b : Branch) (m : Node) : Adjacency :=
  OrderedMap.alter a (n, b) fun ms => ms.getD [] ++ [m]

def get (a : Adjacency) (n : Node) (b : Branch) : List Node := (OrderedMap.get? a (n, b)).getD []

/-- An index of links by one end, holding the other end. -/
def index (near far : Link → Node) (links : List Link) : Adjacency :=
  links.foldl (fun a l => a.push (near l) l.branch (far l)) ∅

/-- The targets of links by their source. -/
def followers (links : List Link) : Adjacency := index Link.source Link.target links

/-- The sources of links by their target. -/
def ancestors (links : List Link) : Adjacency := index Link.target Link.source links

theorem get_push (a : Adjacency) (n m k : Node) (b c : Branch) :
    (a.push n b m).get k c = if k = n ∧ c = b then a.get n b ++ [m] else a.get k c := by
  unfold get push
  rw [OrderedMap.get?_alter]
  by_cases h : k = n ∧ c = b
  · simp [h]
  · rw [if_neg h, if_neg (by simpa using h)]

theorem get_index (near far : Link → Node) (links : List Link) (n : Node) (b : Branch) :
    (index near far links).get n b =
      (links.filter fun l => near l = n ∧ l.branch = b).map far := by
  suffices h : ∀ a : Adjacency,
      (links.foldl (fun a l => a.push (near l) l.branch (far l)) a).get n b =
        a.get n b ++ (links.filter fun l => near l = n ∧ l.branch = b).map far by
    simpa [index, get] using h ∅
  induction links with
  | nil => simp
  | cons l links ih =>
    intro a
    rw [List.foldl_cons, ih, get_push, List.filter_cons]
    by_cases h : near l = n ∧ l.branch = b
    · simp [h.1, h.2]
    · have h' : ¬(n = near l ∧ b = l.branch) := fun e => h ⟨e.1.symm, e.2.symm⟩
      rw [if_neg h', if_neg (by simpa using h)]

theorem get_followers (links : List Link) (n : Node) (b : Branch) :
    (followers links).get n b =
      (links.filter fun l => l.source = n ∧ l.branch = b).map Link.target :=
  get_index _ _ links n b

theorem get_ancestors (links : List Link) (n : Node) (b : Branch) :
    (ancestors links).get n b =
      (links.filter fun l => l.target = n ∧ l.branch = b).map Link.source :=
  get_index _ _ links n b

end Adjacency
end Workflow
