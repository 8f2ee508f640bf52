import Workflow.Proofs.CycleReports

/-!
# What the checks report

The defects of a list of nodes and a list of links stand in the order of the checks. Each check
names what it looks for where that occurs: the orphan decisions as often as they are declared, the
cycles, the undeclared ends of the links one by one, a repeated node once, at its first declaration.
No check asks what another one has found.
-/

namespace Workflow

set_option autoImplicit false

namespace Defect

/-- The place of the check that finds the defect. -/
def check : Defect → Nat
  | orphanDecision _ => 0
  | cycle _ => 1
  | undeclared .. => 2
  | duplicate _ => 3

def orphan? : Defect → Option Node
  | orphanDecision n => some n
  | _ => none

def cycle? : Defect → Option (List Link)
  | cycle c => some c
  | _ => none

def undeclared? : Defect → Option (Node × Link)
  | undeclared n l => some (n, l)
  | _ => none

def duplicate? : Defect → Option Node
  | duplicate n => some n
  | _ => none

end Defect

namespace Validation

/-- The ends of the links, the source before the target, each with its link. -/
def ends (links : List Link) : List (Node × Link) :=
  links.flatMap fun l => [(l.source, l), (l.target, l)]

section Parts
variable (nodes : List Node) (links : List Link)

theorem orphans_eq : orphans nodes links =
    nodes.filter fun n => n.decides = true ∧ ∀ l ∈ links, l.source ≠ n := by
  apply List.filter_congr
  intro n _
  rw [Bool.eq_iff_iff]
  simp

/-- Only the decisions among the nodes and the sources of the links count for the orphans. -/
theorem orphans_congr {nodes nodes' : List Node} {links links' : List Link}
    (hnodes : nodes'.filter Node.decides = nodes.filter Node.decides)
    (hlinks : ∀ n, (∃ l ∈ links', l.source = n) ↔ ∃ l ∈ links, l.source = n) :
    orphans nodes' links' = orphans nodes links := by
  have hsplit : ∀ ns ls, orphans ns ls =
      (ns.filter Node.decides).filter fun n => !(ls.map Link.source).contains n := by
    intro ns ls
    rw [List.filter_filter]
    simp only [Bool.and_comm, orphans]
  rw [hsplit, hsplit, hnodes]
  apply List.filter_congr
  intro n _
  simp [List.mem_map, hlinks]

theorem undeclared_eq :
    undeclared nodes links = (ends links).filter fun e => e.1 ∉ nodes := by
  unfold undeclared ends
  rw [List.filter_flatMap]
  congr 1
  funext l
  by_cases hs : l.source ∈ nodes <;> by_cases ht : l.target ∈ nodes <;> simp [hs, ht]

/-- The nodes are counted in the order of their first declarations. -/
theorem keys_counts_ordered :
    (counts nodes).keys.Pairwise fun m n => nodes.idxOf m < nodes.idxOf n := by
  induction nodes using List.reverseRecOn with
  | nil => exact .nil
  | append_singleton nodes n ih =>
    have hold : (counts nodes).keys.Pairwise fun k m =>
        (nodes ++ [n]).idxOf k < (nodes ++ [n]).idxOf m := by
      apply ih.imp_of_mem
      intro k m hk hm hlt
      rwa [List.idxOf_append_of_mem (mem_keys_counts.mp hk),
        List.idxOf_append_of_mem (mem_keys_counts.mp hm)]
    rw [counts_concat, OrderedMap.keys_alter]
    split
    · exact hold
    · rename_i hn
      have hn : n ∉ nodes := fun h => hn (mem_keys_counts.mpr h)
      apply List.pairwise_append.mpr
      refine ⟨hold, List.pairwise_singleton _ _, ?_⟩
      intro k hk m hm
      obtain rfl := List.mem_singleton.mp hm
      have hk := mem_keys_counts.mp hk
      rw [List.idxOf_append_of_mem hk, List.idxOf_append_of_notMem hn, List.idxOf_cons_self]
      exact List.idxOf_lt_length_of_mem hk

theorem duplicates_ordered :
    (duplicates nodes).Pairwise fun m n => nodes.idxOf m < nodes.idxOf n := by
  rw [duplicates_eq]
  exact (keys_counts_ordered nodes).filter _

theorem filterMap_orphan? :
    (defects nodes links).filterMap Defect.orphan? = orphans nodes links := by
  simp [defects, List.filterMap_map, Function.comp_def, Defect.orphan?]

theorem filterMap_cycle? : (defects nodes links).filterMap Defect.cycle? = cycles links := by
  simp [defects, List.filterMap_map, Function.comp_def, Defect.cycle?]

theorem filterMap_undeclared? :
    (defects nodes links).filterMap Defect.undeclared? = undeclared nodes links := by
  simp [defects, List.filterMap_map, Function.comp_def, Defect.undeclared?]

theorem filterMap_duplicate? :
    (defects nodes links).filterMap Defect.duplicate? = duplicates nodes := by
  simp [defects, List.filterMap_map, Function.comp_def, Defect.duplicate?]

theorem defects_inOrder : (defects nodes links).Pairwise fun a b => a.check ≤ b.check := by
  have hchecks : (defects nodes links).map Defect.check =
      List.replicate (orphans nodes links).length 0 ++ List.replicate (cycles links).length 1 ++
        List.replicate (undeclared nodes links).length 2 ++
          List.replicate (duplicates nodes).length 3 := by
    simp [defects, Function.comp_def, Defect.check, List.map_const']
  have hsorted : ((defects nodes links).map Defect.check).Pairwise (· ≤ ·) := by
    rw [hchecks]
    simp only [List.pairwise_append, List.pairwise_replicate, List.mem_append, List.mem_replicate]
    grind
  exact List.pairwise_map.mp hsorted

end Parts

/-- The defects check by check: what each check names, and all that its findings depend on. -/
structure Itemised (nodes : List Node) (links : List Link) : Prop where
  inOrder : (defects nodes links).Pairwise fun a b => a.check ≤ b.check
  orphans : (defects nodes links).filterMap Defect.orphan? =
    nodes.filter fun n => n.decides = true ∧ ∀ l ∈ links, l.source ≠ n
  cycles : ∀ c ∈ (defects nodes links).filterMap Defect.cycle?, Cycle links c
  covered : ∀ n, Relation.TransGen (Linked links) n n →
    ∃ c ∈ (defects nodes links).filterMap Defect.cycle?, ∃ l ∈ c, l.source = n
  undeclared : (defects nodes links).filterMap Defect.undeclared? =
    (ends links).filter fun e => e.1 ∉ nodes
  repeated : ∀ n, n ∈ (defects nodes links).filterMap Defect.duplicate? ↔ 1 < nodes.count n
  /-- In the order of the first declarations, so that none is named twice. -/
  firsts : ((defects nodes links).filterMap Defect.duplicate?).Pairwise
    fun m n => nodes.idxOf m < nodes.idxOf n
  orphans_alone : ∀ nodes' links', nodes'.filter Node.decides = nodes.filter Node.decides →
    (∀ n, (∃ l ∈ links', l.source = n) ↔ ∃ l ∈ links, l.source = n) →
    (defects nodes' links').filterMap Defect.orphan? =
      (defects nodes links).filterMap Defect.orphan?
  cycles_alone : ∀ nodes', (defects nodes' links).filterMap Defect.cycle? =
    (defects nodes links).filterMap Defect.cycle?
  undeclared_alone : ∀ nodes', (∀ n, n ∈ nodes' ↔ n ∈ nodes) →
    (defects nodes' links).filterMap Defect.undeclared? =
      (defects nodes links).filterMap Defect.undeclared?
  duplicates_alone : ∀ links', (defects nodes links').filterMap Defect.duplicate? =
    (defects nodes links).filterMap Defect.duplicate?

/-- Exactly the defects are reported, in the order of the checks, and what one check finds does not
depend on what the others find. -/
theorem defects_itemised (nodes : List Node) (links : List Link) : Itemised nodes links where
  inOrder := defects_inOrder nodes links
  orphans := by rw [filterMap_orphan?, orphans_eq]
  cycles := by
    intro c hc
    rw [filterMap_cycle?] at hc
    obtain ⟨e, he, d, hd, rfl⟩ := cycleThrough_of_mem_cycles hc
    exact (cycle_of_cycleThrough he hd).2
  covered := by
    intro n hn
    rw [filterMap_cycle?]
    exact exists_cycle_of_transGen hn
  undeclared := by rw [filterMap_undeclared?, undeclared_eq]
  repeated := by
    intro n
    rw [filterMap_duplicate?, mem_duplicates]
  firsts := by
    rw [filterMap_duplicate?]
    exact duplicates_ordered nodes
  orphans_alone := by
    intro nodes' links' hnodes hlinks
    rw [filterMap_orphan?, filterMap_orphan?]
    exact orphans_congr hnodes hlinks
  cycles_alone := by
    intro nodes'
    rw [filterMap_cycle?, filterMap_cycle?]
  undeclared_alone := by
    intro nodes' hnodes
    rw [filterMap_undeclared?, filterMap_undeclared?, undeclared_eq, undeclared_eq]
    simp only [hnodes]
  duplicates_alone := by
    intro links'
    rw [filterMap_duplicate?, filterMap_duplicate?]

end Validation
end Workflow
