import Workflow.Graph
import Workflow.Proofs.VisitOrder

/-!
# What the indexes hold

The two indexes of a plan are built in one pass over its links, one keyed by the sources and one by
the targets. Both hold every link: a look-up by a node and a branch gives the other ends of the links
there, in the order of the links, so that the two agree on how many links lead from a node to a node.
The branches of a node are those of the links that leave it. What passes on from a node on all of
its branches passes on over each of these links, and over each of them once.
-/

namespace Workflow

set_option autoImplicit false

/-- An index counts the links from one end to the other on a branch. -/
theorem Adjacency.count_get_index (near far : Link → Node) (links : List Link) (n m : Node)
    (b : Branch) :
    ((index near far links).get n b).count m =
      links.countP fun l => near l = n ∧ far l = m ∧ l.branch = b := by
  rw [get_index, List.count_eq_countP, List.countP_map, List.countP_filter]
  apply List.countP_congr
  intro l _
  simp only [Function.comp_apply, Bool.and_eq_true, beq_iff_eq, decide_eq_true_eq]
  grind

namespace Plan
variable (p : Plan)

/-- Both indexes count the links from one node to another on a branch, from either end. -/
theorem count_follow_eq_count_feeding (m n : Node) (b : Branch) :
    (p.follow n b).count m = (p.feeding m b).count n := by
  rw [follow, p.followers_eq, Adjacency.followers, Adjacency.count_get_index, feeding,
    p.ancestors_eq, Adjacency.ancestors, Adjacency.count_get_index]
  simp only [and_left_comm]

/-- No link enters a node that has no source on any branch. -/
theorem incoming_eq_nil_iff_feeding {n : Node} :
    incoming p.links n = [] ↔ ∀ b ∈ Branch.all, p.feeding n b = [] := by
  have hlength := (p.feeds_perm n).length_eq
  rw [List.length_map] at hlength
  rw [← List.length_eq_zero_iff, ← hlength, List.length_eq_zero_iff]
  simp [feeds]

theorem initial_eq_filter_feeding :
    p.initial = p.nodes.filter fun n => Branch.all.all fun b => (p.feeding n b).isEmpty := by
  rw [p.initial_eq, p.sources_eq]
  apply List.filter_congr
  intro n _
  rw [Bool.eq_iff_iff, decide_eq_true_eq, p.incoming_eq_nil_iff_feeding, List.all_eq_true]
  simp only [List.isEmpty_iff]

theorem follow_eq_nil {n : Node} {b : Branch} (h : b ∉ n.outgoing) : p.follow n b = [] := by
  rw [follow_eq, List.map_eq_nil_iff, List.filter_eq_nil_iff]
  intro l _ hl
  obtain ⟨rfl, rfl⟩ := of_decide_eq_true hl
  exact h l.branch_mem_outgoing

theorem successors_eq_map (n : Node) :
    p.successors n = (n.outgoing.flatMap fun b =>
      p.links.filter fun l => l.source = n ∧ l.branch = b).map Link.target := by
  rw [successors_eq, heirs, List.map_flatMap]

/-- What the indexes of an active graph give, told by its links. -/
structure Indexed : Prop where
  follow : ∀ n b, (Graph.active p).follow n b =
    .ok ((p.links.filter fun l => l.source = n ∧ l.branch = b).map Link.target)
  feeding : ∀ n b, (Graph.active p).feeding n b =
    .ok ((p.links.filter fun l => l.target = n ∧ l.branch = b).map Link.source)
  dual : ∀ m n b, (p.follow n b).count m = (p.feeding m b).count n
  initial : (Graph.active p).initial =
    p.nodes.filter fun n => Branch.all.all fun b => (p.feeding n b).isEmpty
  spread : ∀ n, (Branch.outgoing n.decides).flatMap (p.follow n) =
    ((Branch.outgoing n.decides).flatMap fun b =>
      p.links.filter fun l => l.source = n ∧ l.branch = b).map Link.target
  /-- The branches of a node share out the links that leave it. -/
  shared : ∀ n, ((Branch.outgoing n.decides).flatMap fun b =>
    p.links.filter fun l => l.source = n ∧ l.branch = b).Perm (p.links.filter fun l => l.source = n)
  others : ∀ n b, b ∉ Branch.outgoing n.decides → p.follow n b = []

/-- The indexes give the links as they are, at either end, and what passes on from a node misses no
link. -/
theorem indexes_exact : p.Indexed where
  follow := fun n b => congrArg Except.ok (p.follow_eq n b)
  feeding := fun n b => congrArg Except.ok (p.feeding_eq n b)
  dual := p.count_follow_eq_count_feeding
  initial := p.initial_eq_filter_feeding
  spread := p.successors_eq_map
  shared := leaving_perm p.links
  others := fun _ _ => p.follow_eq_nil

end Plan
end Workflow
