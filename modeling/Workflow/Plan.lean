import Workflow.Adjacency
import Workflow.Join
import Workflow.Validation

/-!
Graphs of nodes and links. A `Draft` is a graph under construction; a `Plan` is a draft without
defects, compiled: its links are indexed both ways and its initial nodes are known. What a plan
stores is what follows from its nodes and links, by its type.
-/

namespace Workflow

set_option autoImplicit false

structure Draft where
  nodes : List Node := []
  links : List Link := []
  joins : OrderedMap Node Join := ∅

/-- Taking what has each of some keys in turn gives everything that has one of them. -/
theorem flatMap_filter_perm {α κ : Type} [DecidableEq κ] (key : α → κ) (xs : List α) {ks : List κ}
    (h : ks.Nodup) :
    (ks.flatMap fun k => xs.filter fun x => key x = k).Perm (xs.filter fun x => key x ∈ ks) := by
  induction ks with
  | nil => simp
  | cons k ks ih =>
    obtain ⟨hk, hks⟩ := List.nodup_cons.mp h
    have hfirst : (xs.filter fun x => key x ∈ k :: ks).filter (fun x => key x = k) =
        xs.filter fun x => key x = k := by
      rw [List.filter_filter]
      apply List.filter_congr
      grind
    have hrest : (xs.filter fun x => key x ∈ k :: ks).filter (fun x => !decide (key x = k)) =
        xs.filter fun x => key x ∈ ks := by
      rw [List.filter_filter]
      apply List.filter_congr
      grind
    have hsplit := List.filter_append_perm (fun x => decide (key x = k))
      (xs.filter fun x => key x ∈ k :: ks)
    rw [hfirst, hrest] at hsplit
    rw [List.flatMap_cons]
    exact ((ih hks).append_left _).trans hsplit

theorem flatMap_filter_perm_self {α κ : Type} [DecidableEq κ] (key : α → κ) {xs : List α}
    {ks : List κ} (h : ks.Nodup) (hall : ∀ x ∈ xs, key x ∈ ks) :
    (ks.flatMap fun k => xs.filter fun x => key x = k).Perm xs := by
  refine (flatMap_filter_perm key xs h).trans (.of_eq ?_)
  exact List.filter_eq_self.mpr fun x hx => decide_eq_true (hall x hx)

/-- The links that leave a node, branch by branch. -/
theorem leaving_perm (links : List Link) (n : Node) :
    (n.outgoing.flatMap fun b => links.filter fun l => l.source = n ∧ l.branch = b).Perm
      (links.filter fun l => l.source = n) := by
  have hboth : ∀ b, (links.filter fun l => l.source = n ∧ l.branch = b) =
      (links.filter fun l => l.source = n).filter fun l => l.branch = b := by
    intro b
    rw [List.filter_filter]
    apply List.filter_congr
    grind
  simp only [hboth]
  apply flatMap_filter_perm_self Link.branch (Branch.outgoing_nodup n.decides)
  intro l hl
  obtain rfl : l.source = n := by simpa using (List.mem_filter.mp hl).2
  exact l.branch_mem_outgoing

/-- The targets of the links that leave a node: for a decision those of its true answer first. -/
def heirs (links : List Link) (n : Node) : List Node :=
  n.outgoing.flatMap fun b => (links.filter fun l => l.source = n ∧ l.branch = b).map Link.target

theorem length_heirs (links : List Link) (n : Node) :
    (heirs links n).length = (links.filter fun l => l.source = n).length := by
  rw [heirs, ← List.map_flatMap, List.length_map, (leaving_perm links n).length_eq]

/-- The links whose source is not among the given nodes. -/
def pending (links : List Link) (done : List Node) : List Link :=
  links.filter fun l => l.source ∉ done

theorem length_pending_concat (links : List Link) {done : List Node} {n : Node} (h : n ∉ done) :
    (pending links (done ++ [n])).length + (heirs links n).length =
      (pending links done).length := by
  rw [length_heirs]
  unfold pending
  induction links with
  | nil => rfl
  | cons l links ih =>
    simp only [List.mem_append, List.mem_singleton, not_or, Bool.decide_and, decide_not,
      List.filter_cons] at ih ⊢
    by_cases hs : l.source = n
    · simp [hs, h]
      omega
    · by_cases hm : l.source ∈ done
      · simpa [hs, hm] using ih
      · simp [hs, hm]
        omega

namespace Draft

def defects (d : Draft) : List Defect := Workflow.defects d.nodes d.links

/-- The nodes that no link enters, in the order of declaration. -/
def sources (d : Draft) : List Node :=
  d.nodes.filter fun n => !(d.links.map Link.target).contains n

/-- The join of a node, unless set the one that takes a single continuing link. -/
def joinOf (d : Draft) (n : Node) : Join := (d.joins.get? n).getD .one

def addNode (d : Draft) (n : Node) : Draft := { d with nodes := d.nodes ++ [n] }

def addLink (d : Draft) (l : Link) : Draft := { d with links := d.links ++ [l] }

def setJoin (d : Draft) (n : Node) (j : Join) : Draft := { d with joins := d.joins.insert n j }

theorem joinOf_setJoin (d : Draft) (n m : Node) (j : Join) :
    (d.setJoin n j).joinOf m = if m = n then j else d.joinOf m := by
  unfold joinOf setJoin
  rw [OrderedMap.get?_insert]
  split <;> rfl

end Draft

structure Plan extends Draft where
  initial : List Node
  followers : Adjacency
  ancestors : Adjacency
  valid : toDraft.defects = []
  initial_eq : initial = toDraft.sources
  followers_eq : followers = Adjacency.followers toDraft.links
  ancestors_eq : ancestors = Adjacency.ancestors toDraft.links

def Draft.compile (d : Draft) (h : d.defects = []) : Plan where
  toDraft := d
  initial := d.sources
  followers := Adjacency.followers d.links
  ancestors := Adjacency.ancestors d.links
  valid := h
  initial_eq := rfl
  followers_eq := rfl
  ancestors_eq := rfl

namespace Plan

/-- The targets of the links that leave a node on a branch. -/
def follow (p : Plan) (n : Node) (b : Branch) : List Node := p.followers.get n b

/-- The sources of the links that enter a node on a branch. -/
def feeding (p : Plan) (n : Node) (b : Branch) : List Node := p.ancestors.get n b

/-- The sources of all links that enter a node, each with the branch of its link. -/
def feeds (p : Plan) (n : Node) : List (Node × Branch) :=
  Branch.all.flatMap fun b => (p.feeding n b).map fun m => (m, b)

/-- The targets of all links that leave a node: for a decision those of its true answer first. -/
def successors (p : Plan) (n : Node) : List Node := n.outgoing.flatMap (p.follow n)

theorem follow_eq (p : Plan) (n : Node) (b : Branch) :
    p.follow n b = (p.links.filter fun l => l.source = n ∧ l.branch = b).map Link.target := by
  rw [follow, p.followers_eq, Adjacency.get_followers]

theorem feeding_eq (p : Plan) (n : Node) (b : Branch) :
    p.feeding n b = (p.links.filter fun l => l.target = n ∧ l.branch = b).map Link.source := by
  rw [feeding, p.ancestors_eq, Adjacency.get_ancestors]

theorem successors_eq (p : Plan) (n : Node) : p.successors n = heirs p.links n := by
  unfold successors heirs
  congr 1
  funext b
  exact p.follow_eq n b

end Plan
end Workflow
