import Mathlib.Data.Nat.Find
import Workflow.Proofs.Visits

/-!
# Batches of visits

A run visits the initial nodes one after another, each with all that follows from it. A node is
recorded in the visit of the last initial node that leads to it: until then a source of it, or of a
node before it, is missing, and after that nothing is left to wait for. So the nodes of a report
come in batches, one for each initial node, and an abort cuts the report off within one batch.
-/

namespace Workflow

set_option autoImplicit false

namespace Plan
variable {p : Plan} {n : Node}

theorem exists_initial (h : n ∈ p.nodes) : ∃ m ∈ p.initial, Reaches p.links m n := by
  induction n using p.acyclic.induction with
  | step n ih =>
    by_cases hin : incoming p.links n = []
    · exact ⟨n, mem_initial.mpr ⟨h, hin⟩, .refl⟩
    · obtain ⟨l, hl, rfl⟩ := exists_link_of_incoming hin
      obtain ⟨m, hm, hreach⟩ := ih l.source ⟨l, hl, rfl, rfl⟩ (p.source_mem hl)
      exact ⟨m, hm, hreach.tail ⟨l, hl, rfl, rfl⟩⟩

/-- A walk from some of the initial nodes goes exactly to the nodes that no other initial node leads
to. -/
theorem mem_walk_iff {ns : List Node} (hns : ∀ m ∈ ns, m ∈ p.initial) :
    n ∈ walk p.links ns [] ↔
      n ∈ p.nodes ∧ ∀ m ∈ p.initial, Reaches p.links m n → m ∈ ns := by
  have horder := walk_readyOrder p.links ns []
  constructor
  · intro hn
    refine ⟨?_, ?_⟩
    · apply mem_nodes_of_mem_walk (fun l hl => p.target_mem hl) _ n hn
      exact fun m hm => (mem_initial.mp (hns m hm)).1
    · intro m hm hreach
      -- what leads to a node of the walk is in the walk, and nothing leads to an initial node
      have hnil : Closed p.links [] := fun k hk => absurd hk List.not_mem_nil
      have hmem : m ∈ walk p.links ns [] := (hnil.append horder).mem_of_reaches hreach hn
      have hfrom : m ∈ ns ++ p.links.map Link.target := by
        apply mem_nodes_of_mem_walk _ _ m hmem
        · exact fun l hl => List.mem_append_right _ (List.mem_map_of_mem hl)
        · exact fun k hk => List.mem_append_left _ hk
      rcases List.mem_append.mp hfrom with hm' | hm'
      · exact hm'
      · obtain ⟨l, hl, rfl⟩ := List.mem_map.mp hm'
        exact absurd hm (target_notMem_initial hl)
  · intro ⟨hn, hfrom⟩
    have hdue : ∀ k ∈ p.nodes.filter fun k => ∀ m ∈ p.initial, Reaches p.links m k → m ∈ ns,
        ¬ Due p.links ([] ++ walk p.links ns []) k := by
      apply not_due_of_walk
      intro k hk hdue
      obtain ⟨hk, hkfrom⟩ := List.mem_filter.mp hk
      have hinitial : k ∈ p.initial := mem_initial.mpr ⟨hk, incoming_eq_nil_iff.mpr hdue.2⟩
      exact of_decide_eq_true hkfrom k hinitial .refl
    -- along the links: all sources of the node are in the walk, and it is not due any more
    induction n using p.acyclic.induction with
    | step n ih =>
      by_contra hmiss
      apply hdue n (List.mem_filter.mpr ⟨hn, decide_eq_true hfrom⟩)
      refine ⟨hmiss, ?_⟩
      intro l hl ht
      have hlink : Linked p.links l.source n := ⟨l, hl, rfl, ht⟩
      apply ih l.source hlink (p.source_mem hl)
      exact fun m hm hreach => hfrom m hm (hreach.tail hlink)

/-- The position of the last initial node that leads to the node. -/
def batch (p : Plan) (n : Node) : Nat :=
  Nat.findGreatest (fun i => ∃ m ∈ p.initial[i]?, Reaches p.links m n) p.initial.length

theorem initial_nodup (p : Plan) : p.initial.Nodup := by
  rw [p.initial_eq]
  exact p.nodes_nodup.sublist List.filter_sublist

theorem le_batch {i : Nat} (hi : i < p.initial.length) (h : Reaches p.links p.initial[i] n) :
    i ≤ p.batch n :=
  Nat.le_findGreatest (Nat.le_of_lt hi) ⟨p.initial[i], List.getElem?_eq_getElem hi, h⟩

theorem reaches_batch (h : n ∈ p.nodes) :
    ∃ hi : p.batch n < p.initial.length, Reaches p.links p.initial[p.batch n] n := by
  obtain ⟨m, hm, hreach⟩ := exists_initial h
  obtain ⟨i, hi, rfl⟩ := List.mem_iff_getElem.mp hm
  obtain ⟨k, hk, hlast⟩ : ∃ k ∈ p.initial[p.batch n]?, Reaches p.links k n :=
    Nat.findGreatest_spec (P := fun i => ∃ m ∈ p.initial[i]?, Reaches p.links m n)
      (Nat.le_of_lt hi) ⟨p.initial[i], List.getElem?_eq_getElem hi, hreach⟩
  obtain ⟨hlt, rfl⟩ := List.getElem?_eq_some_iff.mp hk
  exact ⟨hlt, hlast⟩

theorem batch_lt_iff (h : n ∈ p.nodes) {k : Nat} :
    p.batch n < k ↔ ∀ m ∈ p.initial, Reaches p.links m n → m ∈ p.initial.take k := by
  constructor
  · intro hk m hm hreach
    obtain ⟨i, hi, rfl⟩ := List.mem_iff_getElem.mp hm
    have hle := le_batch hi hreach
    exact List.mem_take_iff_getElem.mpr ⟨i, by omega, rfl⟩
  · intro hfrom
    obtain ⟨hi, hreach⟩ := reaches_batch h
    obtain ⟨j, hj, heq⟩ :=
      List.mem_take_iff_getElem.mp (hfrom _ (List.getElem_mem hi) hreach)
    have hsame : j = p.batch n := p.initial_nodup.getElem_inj_iff.mp heq
    omega

theorem mem_walk_take_iff (p : Plan) (k : Nat) {n : Node} :
    n ∈ walk p.links (p.initial.take k) [] ↔ n ∈ p.nodes ∧ p.batch n < k := by
  rw [mem_walk_iff fun m hm => List.mem_of_mem_take hm]
  exact and_congr_right fun hn => (batch_lt_iff hn).symm

theorem walk_take_succ (p : Plan) {k : Nat} (hk : k < p.initial.length) :
    walk p.links (p.initial.take (k + 1)) [] = walk p.links (p.initial.take k) [] ++
      walk p.links [p.initial[k]] (walk p.links (p.initial.take k) []) := by
  rw [← List.take_append_getElem hk, walk_append, List.nil_append]

/-- The visit of an initial node goes to the nodes of its batch. -/
theorem batch_eq_of_mem_walk {k : Nat} (hk : k < p.initial.length)
    (hn : n ∈ walk p.links [p.initial[k]] (walk p.links (p.initial.take k) [])) :
    p.batch n = k := by
  have hnext : n ∈ walk p.links (p.initial.take (k + 1)) [] := by
    rw [p.walk_take_succ hk]
    exact List.mem_append_right _ hn
  obtain ⟨hmem, hlt⟩ := (p.mem_walk_take_iff _).mp hnext
  have hnew : n ∉ walk p.links (p.initial.take k) [] := (walk_readyOrder _ _ _).notMem n hn
  have hge : ¬ p.batch n < k := fun h => hnew ((p.mem_walk_take_iff _).mpr ⟨hmem, h⟩)
  omega

theorem walk_take_batches (p : Plan) {k : Nat} (hk : k ≤ p.initial.length) :
    (walk p.links (p.initial.take k) []).Pairwise fun m n => p.batch m ≤ p.batch n := by
  induction k with
  | zero =>
    rw [List.take_zero, walk]
    exact .nil
  | succ k ih =>
    rw [p.walk_take_succ hk, List.pairwise_append]
    refine ⟨ih (Nat.le_of_succ_le hk), ?_, ?_⟩
    · apply List.pairwise_of_forall_mem_list
      intro m hm n hn
      rw [batch_eq_of_mem_walk hk hm, batch_eq_of_mem_walk hk hn]
    · intro m hm n hn
      have hlt := ((p.mem_walk_take_iff _).mp hm).2
      have heq := batch_eq_of_mem_walk hk hn
      omega

/-- The visit order goes through one batch after another. -/
theorem visitOrder_batches (p : Plan) :
    (visitOrder p.nodes p.links).Pairwise fun m n => p.batch m ≤ p.batch n := by
  have h := p.walk_take_batches (Nat.le_refl p.initial.length)
  rwa [List.take_length, ← visitOrder_eq] at h

end Plan

namespace Run

/-- The run has visited so many initial nodes, each visit to its end, and has come to this. -/
inductive Visited (p : Plan) (body : Node → Body) (c : Context) : Nat → Progress → Prop where
  | start : Visited p body c 0 ((ofPlan p c).progress.tell (.started p.initial.length))
  | visit {i : Nat} {s t : Progress} (before : Visited p body c i s) (hi : i < p.initial.length)
      (done : p.traverse body [p.initial[i]] s = (none, t)) : Visited p body c (i + 1) t

namespace Visited
variable {p : Plan} {body : Node → Body} {c : Context} {i : Nat} {s t : Progress}

theorem le_length (h : Visited p body c i s) : i ≤ p.initial.length := by
  cases h with
  | start => exact Nat.zero_le _
  | visit _ hi _ => exact hi

theorem keys_eq (h : Visited p body c i s) : s.report.keys = walk p.links (p.initial.take i) [] := by
  induction h with
  | start =>
    rw [List.take_zero, walk]
    rfl
  | visit _ hi done ih => rw [Plan.keys_traverse done, ih, p.walk_take_succ hi]

/-- What is left of a run goes on with visits, through all initial nodes or up to one that ends in
an abort. -/
theorem of_traverse {a : Option Abort} (h : Visited p body c i s)
    (ht : p.traverse body (p.initial.drop i) s = (a, t)) :
    (a = none ∧ Visited p body c p.initial.length t) ∨
      ∃ j u, ∃ hj : j < p.initial.length, ∃ b, a = some b ∧ Visited p body c j u ∧
        p.traverse body [p.initial[j]] u = (some b, t) := by
  generalize hns : p.initial.drop i = ns at ht
  induction ns generalizing i s with
  | nil =>
    rw [Plan.traverse_nil] at ht
    cases ht
    have hi : i = p.initial.length := by
      have := List.drop_eq_nil_iff.mp hns
      have := h.le_length
      omega
    exact .inl ⟨rfl, hi ▸ h⟩
  | cons n ns ih =>
    have hi : i < p.initial.length := by
      by_contra hge
      rw [List.drop_eq_nil_of_le (Nat.le_of_not_lt hge)] at hns
      cases hns
    rw [List.drop_eq_getElem_cons hi] at hns
    cases hns
    rw [← List.singleton_append, Plan.traverse_append] at ht
    cases hv : p.traverse body [p.initial[i]] s with
    | mk b u =>
      rw [hv] at ht
      cases b with
      | none => exact ih (.visit h hi hv) rfl ht
      | some b =>
        cases ht
        exact .inr ⟨i, s, hi, b, rfl, h, hv⟩

end Visited

variable (p : Plan) (body : Node → Body) (c : Context)

/-- A run is a row of visits: of all initial nodes, or up to the visit in which it aborts. -/
structure InBatches : Prop where
  /-- The batch of a node belongs to the last initial node that leads to it. -/
  last : ∀ n ∈ p.nodes, (∃ hi : p.batch n < p.initial.length,
      Reaches p.links p.initial[p.batch n] n) ∧
    ∀ i, ∀ hi : i < p.initial.length, Reaches p.links p.initial[i] n → i ≤ p.batch n
  visits : (∃ s, (compute body (ofPlan p c)).1 = .ok () ∧
      Visited p body c p.initial.length s ∧ (compute body (ofPlan p c)).2.report = s.report) ∨
    ∃ i s t n f, ∃ hi : i < p.initial.length,
      (compute body (ofPlan p c)).1 = .error (.aborted n f) ∧ Visited p body c i s ∧
      p.traverse body [p.initial[i]] s = (some ⟨n, f⟩, t) ∧
        (compute body (ofPlan p c)).2.report = t.report
  recorded : ∀ i s, Visited p body c (i + 1) s → ∀ n,
    n ∈ s.report.keys ↔ n ∈ p.nodes ∧ p.batch n ≤ i
  ordered : (compute body (ofPlan p c)).2.report.keys.Pairwise fun m n => p.batch m ≤ p.batch n
  aborted : ∀ n f, (compute body (ofPlan p c)).1 = .error (.aborted n f) → ∀ m ∈ p.nodes,
    (p.batch m < p.batch n → m ∈ (compute body (ofPlan p c)).2.report.keys) ∧
      (p.batch n < p.batch m → m ∉ (compute body (ofPlan p c)).2.report.keys)

theorem visits_in_batches : InBatches p body c where
  last := fun n hn => ⟨Plan.reaches_batch hn, fun _ hi h => Plan.le_batch hi h⟩
  visits := by
    obtain ⟨a, s, ht, hc⟩ := compute_eq p body c
    rw [hc]
    rcases Visited.of_traverse .start ht with ⟨rfl, hv⟩ | ⟨i, u, hi, b, rfl, hv, hb⟩
    · exact .inl ⟨s, rfl, hv, rfl⟩
    · exact .inr ⟨i, u, s, b.node, b.failure, hi, rfl, hv, hb, rfl⟩
  recorded := by
    intro i s hs n
    rw [hs.keys_eq, p.mem_walk_take_iff, Nat.lt_succ_iff]
  ordered := p.visitOrder_batches.sublist (compute_goesAlong p body c).part.sublist
  aborted := by
    intro n f hn m hm
    obtain ⟨before, after, horder, hkeys⟩ := (compute_goesAlong p body c).of_aborted hn
    have hbatches := p.visitOrder_batches
    rw [horder, List.pairwise_append] at hbatches
    obtain ⟨_, hafter, hbefore⟩ := hbatches
    have hm : m ∈ before ++ n :: after := horder ▸ p.mem_visitOrder.mpr hm
    rw [hkeys]
    constructor
    · intro hlt
      rcases List.mem_append.mp hm with hm | hm
      · exact List.mem_append_left _ hm
      · rcases List.mem_cons.mp hm with rfl | hm
        · omega
        · have := List.rel_of_pairwise_cons hafter hm
          omega
    · intro hlt hmem
      rcases List.mem_append.mp hmem with hmem | hmem
      · have := hbefore m hmem n List.mem_cons_self
        omega
      · rw [List.mem_singleton.mp hmem] at hlt
        omega

end Run
end Workflow
