import Mathlib.Data.Fintype.Card
import Mathlib.Data.List.Induction
import Mathlib.Data.Set.Finite.Basic
import Mathlib.Order.WellFounded
import Workflow.Plan
import Workflow.Proofs.Search

/-!
# Reachability along links

`Linked` is one link, `Reaches` a chain of them. The nodes and links of a plan passed all checks,
so its nodes are distinct, its links lead from declared nodes to declared nodes, and no chain leads
back to where it began. Hence some node of any finite collection has no source in it.
-/

namespace Workflow

set_option autoImplicit false

/-- A link leads from the first node to the second. -/
def Linked (links : List Link) (m n : Node) : Prop := ∃ l ∈ links, l.source = m ∧ l.target = n

instance (links : List Link) (m n : Node) : Decidable (Linked links m n) :=
  inferInstanceAs (Decidable (∃ l ∈ links, l.source = m ∧ l.target = n))

/-- A chain of links, possibly empty, leads from the first node to the second. -/
def Reaches (links : List Link) : Node → Node → Prop := Relation.ReflTransGen (Linked links)

def Acyclic (links : List Link) : Prop := ∀ n, ¬ Relation.TransGen (Linked links) n n

theorem mem_heirs {links : List Link} {m n : Node} : n ∈ heirs links m ↔ Linked links m n := by
  simp only [heirs, List.mem_flatMap, List.mem_map, List.mem_filter, decide_eq_true_eq]
  constructor
  · rintro ⟨b, _, l, ⟨hl, hs, _⟩, ht⟩
    exact ⟨l, hl, hs, ht⟩
  · rintro ⟨l, hl, rfl, ht⟩
    exact ⟨l.branch, l.branch_mem_outgoing, l, ⟨hl, rfl, rfl⟩, ht⟩

namespace Validation

theorem step_linkGraph_iff {links : List Link} {m n : Node} :
    (linkGraph links).Step m n ↔ Linked links m n := by
  constructor
  · intro ⟨⟨l, i⟩, he, hs, ht⟩
    exact ⟨l, (List.mem_zipIdx' he).2 ▸ List.getElem_mem _, hs, ht⟩
  · intro ⟨l, hl, hs, ht⟩
    obtain ⟨i, hi, rfl⟩ := List.mem_iff_getElem.mp hl
    refine ⟨(links[i], i), ?_, hs, ht⟩
    exact List.mem_zipIdx_iff_getElem?.mpr (List.getElem?_eq_getElem hi)

theorem step_eq_linked (links : List Link) : (linkGraph links).Step = Linked links := by
  funext m n
  exact propext step_linkGraph_iff

instance (links : List Link) (m n : Node) : Decidable (Reaches links m n) :=
  decidable_of_iff (Relation.ReflTransGen (linkGraph links).Step m n) (by
    rw [step_eq_linked]
    rfl)

theorem orphans_eq_nil_iff {nodes : List Node} {links : List Link} :
    orphans nodes links = [] ↔ ∀ n ∈ nodes, n.decides = true → ∃ l ∈ links, l.source = n := by
  unfold orphans
  rw [List.filter_eq_nil_iff]
  simp

theorem cycles_eq_nil_iff {links : List Link} : cycles links = [] ↔ Acyclic links := by
  unfold cycles Acyclic
  rw [List.map_eq_nil_iff, Digraph.cycles_eq_nil_iff, step_eq_linked]

theorem undeclared_eq_nil_iff {nodes : List Node} {links : List Link} :
    undeclared nodes links = [] ↔ ∀ l ∈ links, l.source ∈ nodes ∧ l.target ∈ nodes := by
  unfold undeclared
  simp

theorem counts_concat (nodes : List Node) (n : Node) :
    counts (nodes ++ [n]) = (counts nodes).alter n fun c => c.getD 0 + 1 := by
  simp [counts]

theorem getD_counts (nodes : List Node) (n : Node) :
    ((counts nodes).get? n).getD 0 = nodes.count n := by
  induction nodes using List.reverseRecOn with
  | nil => rfl
  | append_singleton nodes m ih =>
    rw [counts_concat, OrderedMap.get?_alter, List.count_append]
    by_cases h : n = m
    · subst h
      simp [ih]
    · have hm : m ≠ n := fun e => h e.symm
      simp [h, hm, ih]

theorem mem_keys_counts {nodes : List Node} {n : Node} : n ∈ (counts nodes).keys ↔ n ∈ nodes := by
  induction nodes using List.reverseRecOn with
  | nil => simp [counts]
  | append_singleton nodes m ih =>
    rw [counts_concat, OrderedMap.alter, OrderedMap.mem_keys_insert, ih]
    simp [or_comm]

theorem duplicates_eq (nodes : List Node) :
    duplicates nodes = (counts nodes).keys.filter fun n => 1 < nodes.count n := by
  unfold duplicates OrderedMap.keys
  rw [List.filter_map]
  congr 1
  apply List.filter_congr
  intro e he
  have hc := getD_counts nodes e.1
  rw [OrderedMap.get?_eq_some_iff.mpr he, Option.getD_some] at hc
  simp [hc]

theorem mem_duplicates {nodes : List Node} {n : Node} :
    n ∈ duplicates nodes ↔ 1 < nodes.count n := by
  rw [duplicates_eq, List.mem_filter, mem_keys_counts, decide_eq_true_eq]
  refine ⟨And.right, fun h => ⟨?_, h⟩⟩
  exact List.count_pos_iff.mp (by omega)

theorem duplicates_eq_nil_iff {nodes : List Node} : duplicates nodes = [] ↔ nodes.Nodup := by
  rw [List.eq_nil_iff_forall_not_mem, List.nodup_iff_count_le_one]
  simp only [mem_duplicates, Nat.not_lt]

theorem defects_eq_nil_iff {nodes : List Node} {links : List Link} :
    defects nodes links = [] ↔ orphans nodes links = [] ∧ cycles links = [] ∧
      undeclared nodes links = [] ∧ duplicates nodes = [] := by
  unfold defects
  simp only [List.append_eq_nil_iff, List.map_eq_nil_iff, and_assoc]

end Validation

namespace Plan

theorem checks (p : Plan) :
    Validation.orphans p.nodes p.links = [] ∧ Validation.cycles p.links = [] ∧
      Validation.undeclared p.nodes p.links = [] ∧ Validation.duplicates p.nodes = [] :=
  Validation.defects_eq_nil_iff.mp p.valid

theorem acyclic (p : Plan) : Acyclic p.links := Validation.cycles_eq_nil_iff.mp p.checks.2.1

theorem declared (p : Plan) : ∀ l ∈ p.links, l.source ∈ p.nodes ∧ l.target ∈ p.nodes :=
  Validation.undeclared_eq_nil_iff.mp p.checks.2.2.1

theorem source_mem (p : Plan) {l : Link} (h : l ∈ p.links) : l.source ∈ p.nodes :=
  (p.declared l h).1

theorem target_mem (p : Plan) {l : Link} (h : l ∈ p.links) : l.target ∈ p.nodes :=
  (p.declared l h).2

theorem nodes_nodup (p : Plan) : p.nodes.Nodup :=
  Validation.duplicates_eq_nil_iff.mp p.checks.2.2.2

end Plan

/-- Among finitely many nodes one is linked from none of the others. -/
theorem Acyclic.exists_first {links : List Link} (h : Acyclic links) {ns : List Node}
    (hne : ns ≠ []) : ∃ n ∈ ns, ∀ m ∈ ns, ¬ Linked links m n := by
  let r : {n // n ∈ ns} → {n // n ∈ ns} → Prop :=
    fun m n => Relation.TransGen (Linked links) m.val n.val
  have : Finite {n // n ∈ ns} := (List.finite_toSet ns).to_subtype
  have : IsTrans _ r := ⟨fun _ _ _ hab hbc => hab.trans hbc⟩
  have : Std.Irrefl r := ⟨fun n => h n.val⟩
  have hwf : WellFounded r := Finite.wellFounded_of_trans_of_irrefl r
  obtain ⟨a, ha⟩ := List.exists_mem_of_ne_nil ns hne
  obtain ⟨n, _, hmin⟩ := hwf.has_min Set.univ ⟨⟨a, ha⟩, trivial⟩
  refine ⟨n.val, n.property, ?_⟩
  intro m hm hl
  exact hmin ⟨m, hm⟩ trivial (.single hl)

/-- What passes along links from the sources of a node to the node holds of every node. -/
theorem Acyclic.induction {links : List Link} (h : Acyclic links) {P : Node → Prop}
    (step : ∀ n, (∀ m, Linked links m n → P m) → P n) (n : Node) : P n := by
  classical
  by_contra hn
  -- of the nodes where it fails, the given one and the sources of links, take a first one
  have hne : ((n :: links.map Link.source).filter fun m => ¬ P m) ≠ [] :=
    List.ne_nil_of_mem (List.mem_filter.mpr ⟨List.mem_cons_self, decide_eq_true hn⟩)
  obtain ⟨m, hm, hfirst⟩ := h.exists_first hne
  obtain ⟨_, hm⟩ := List.mem_filter.mp hm
  apply of_decide_eq_true hm
  apply step
  intro k hk
  by_contra hfail
  obtain ⟨l, hl, rfl, ht⟩ := hk
  have hmem : l.source ∈ (n :: links.map Link.source).filter fun m => ¬ P m :=
    List.mem_filter.mpr ⟨List.mem_cons_of_mem _ (List.mem_map_of_mem hl), decide_eq_true hfail⟩
  exact hfirst l.source hmem ⟨l, hl, rfl, ht⟩

end Workflow
