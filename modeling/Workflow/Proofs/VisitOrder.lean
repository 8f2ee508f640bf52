import Workflow.Proofs.Admission
import Workflow.Proofs.Reachability

/-!
# The order of the visits

A ready order lists nodes so that each comes after the sources of all its links. `walk` is the
traversal with everything left out that has no say in the order: bodies, outcomes, joins and the
context. It gives a ready order, and on a plan, from the nodes that no link enters, one of all
nodes: a node that is never reached would have a source that is never reached, and so on back
through links that form no cycle.
-/

namespace Workflow

set_option autoImplicit false

/-- Each node of the list is due when the nodes before it are done. -/
def ReadyOrder (links : List Link) : List Node → List Node → Prop
  | _, [] => True
  | done, n :: ns => Due links done n ∧ ReadyOrder links (done ++ [n]) ns

namespace ReadyOrder
variable {links : List Link} {done ns ms : List Node}

theorem append_iff :
    ReadyOrder links done (ns ++ ms) ↔
      ReadyOrder links done ns ∧ ReadyOrder links (done ++ ns) ms := by
  induction ns generalizing done with
  | nil => simp [ReadyOrder]
  | cons n ns ih => simp [ReadyOrder, ih, and_assoc]

theorem notMem (h : ReadyOrder links done ns) : ∀ n ∈ ns, n ∉ done := by
  induction ns generalizing done with
  | nil =>
    intro n hn
    cases hn
  | cons m ns ih =>
    obtain ⟨hm, hns⟩ := h
    intro n hn
    rcases List.mem_cons.mp hn with rfl | hn
    · exact hm.1
    · intro hd
      exact ih hns n hn (List.mem_append_left _ hd)

theorem nodup (h : ReadyOrder links done ns) : ns.Nodup := by
  induction ns generalizing done with
  | nil => exact .nil
  | cons n ns ih =>
    obtain ⟨_, hns⟩ := h
    apply List.nodup_cons.mpr
    refine ⟨?_, ih hns⟩
    intro hn
    exact hns.notMem n hn (by simp)

theorem ready_of_append {n : Node} (h : ReadyOrder links done (ns ++ n :: ms)) :
    Ready links (done ++ ns) n :=
  (append_iff.mp h).2.1.2

theorem congr {done' : List Node} (hd : ∀ m, m ∈ done ↔ m ∈ done')
    (h : ReadyOrder links done ns) : ReadyOrder links done' ns := by
  induction ns generalizing done done' with
  | nil => trivial
  | cons n ns ih =>
    obtain ⟨⟨hn, hr⟩, hns⟩ := h
    refine ⟨⟨fun hm => hn ((hd n).mpr hm), hr.mono fun m hm => (hd m).mp hm⟩, ih ?_ hns⟩
    intro m
    simp [hd m]

theorem of_perm {links' : List Link} (hp : links.Perm links') (h : ReadyOrder links done ns) :
    ReadyOrder links' done ns := by
  induction ns generalizing done with
  | nil => trivial
  | cons n ns ih => exact ⟨⟨h.1.1, ready_of_perm hp h.1.2⟩, ih h.2⟩

end ReadyOrder

/-- With every node also the sources of its links. -/
def Closed (links : List Link) (done : List Node) : Prop := ∀ n ∈ done, Ready links done n

section Closed
variable {links : List Link} {done ns : List Node} {m n : Node}

theorem Closed.concat (hd : Closed links done) (hn : Ready links done n) :
    Closed links (done ++ [n]) := by
  intro k hk
  have hsub : ∀ i ∈ done, i ∈ done ++ [n] := fun i hi => List.mem_append_left _ hi
  rcases List.mem_append.mp hk with hk | hk
  · exact (hd k hk).mono hsub
  · obtain rfl := List.mem_singleton.mp hk
    exact hn.mono hsub

theorem Closed.mem_of_reaches (hd : Closed links done) (h : Reaches links m n) (hn : n ∈ done) :
    m ∈ done := by
  induction h using Relation.ReflTransGen.head_induction_on with
  | refl => exact hn
  | head hlink _ ih =>
    obtain ⟨l, hl, rfl, rfl⟩ := hlink
    exact hd _ ih l hl rfl

theorem Closed.not_reaches (hd : Closed links done) (hm : m ∉ done) (hn : Ready links done n)
    (hne : m ≠ n) : ¬ Reaches links m n := by
  intro h
  rcases Relation.ReflTransGen.cases_tail h with he | ⟨k, hmk, l, hl, rfl, rfl⟩
  · exact hne he.symm
  · exact hm (hd.mem_of_reaches hmk (hn l hl rfl))

theorem Closed.append (hd : Closed links done) (h : ReadyOrder links done ns) :
    Closed links (done ++ ns) := by
  induction ns generalizing done with
  | nil => rwa [List.append_nil]
  | cons n ns ih =>
    obtain ⟨⟨_, hr⟩, hns⟩ := h
    rw [List.append_cons]
    exact ih (hd.concat hr) hns

/-- What follows from the last node of a ready order is not in the order. -/
theorem ReadyOrder.notMem_of_transGen (h : ReadyOrder links [] (ns ++ [n])) (ha : Acyclic links)
    (hm : Relation.TransGen (Linked links) n m) : m ∉ ns ++ [n] := by
  have hnil : Closed links [] := by
    intro k hk
    cases hk
  obtain ⟨hns, hlast⟩ := append_iff.mp h
  intro hmem
  rcases List.mem_append.mp hmem with hmem | hmem
  · exact hlast.1.1 ((hnil.append hns).mem_of_reaches hm.to_reflTransGen hmem)
  · exact ha n (List.mem_singleton.mp hmem ▸ hm)

end Closed

/-- The nodes that a traversal resolves, in order, when none of them aborts. -/
def walk (links : List Link) : List Node → List Node → List Node
  | [], _ => []
  | n :: agenda, done =>
    if Due links done n then n :: walk links (heirs links n ++ agenda) (done ++ [n])
    else walk links agenda done
termination_by agenda done => agenda.length + (pending links done).length
decreasing_by
  · rename_i h
    have := length_pending_concat links h.1
    simp only [List.length_append, List.length_cons]
    omega
  · simp only [List.length_cons]
    omega

/-- The order in which the nodes of a plan are visited. -/
def visitOrder (nodes : List Node) (links : List Link) : List Node :=
  walk links (nodes.filter fun n => incoming links n = []) []

theorem walk_readyOrder (links : List Link) (agenda done : List Node) :
    ReadyOrder links done (walk links agenda done) := by
  fun_induction walk links agenda done with
  | case1 done => trivial
  | case2 n agenda done h ih => exact ⟨h, ih⟩
  | case3 n agenda done h ih => exact ih

theorem walk_append (links : List Link) (as bs done : List Node) :
    walk links (as ++ bs) done =
      walk links as done ++ walk links bs (done ++ walk links as done) := by
  fun_induction walk links as done with
  | case1 done => rw [List.nil_append, List.nil_append, List.append_nil]
  | case2 n agenda done hn ih =>
    rw [List.cons_append, walk, if_pos hn, ← List.append_assoc, ih, List.cons_append,
      List.append_assoc, List.singleton_append]
  | case3 n agenda done hn ih => rw [List.cons_append, walk, if_neg hn, ih]

theorem mem_nodes_of_mem_walk {nodes : List Node} {links : List Link}
    (hlinks : ∀ l ∈ links, l.target ∈ nodes) {agenda done : List Node}
    (hagenda : ∀ n ∈ agenda, n ∈ nodes) : ∀ n ∈ walk links agenda done, n ∈ nodes := by
  fun_induction walk links agenda done with
  | case1 done =>
    intro n hn
    cases hn
  | case2 n agenda done h ih =>
    intro m hm
    rcases List.mem_cons.mp hm with rfl | hm
    · exact hagenda m List.mem_cons_self
    · refine ih ?_ m hm
      intro k hk
      rcases List.mem_append.mp hk with hk | hk
      · obtain ⟨l, hl, _, rfl⟩ := mem_heirs.mp hk
        exact hlinks l hl
      · exact hagenda k (List.mem_cons_of_mem n hk)
  | case3 n agenda done h ih => exact ih fun m hm => hagenda m (List.mem_cons_of_mem n hm)

/-- Nothing due is left behind, when all that is due stands on the agenda: a node gets ready only by
a link from the node resolved last, and then it is put on the agenda. -/
theorem not_due_of_walk {nodes : List Node} {links : List Link} {agenda done : List Node}
    (h : ∀ n ∈ nodes, Due links done n → n ∈ agenda) :
    ∀ n ∈ nodes, ¬ Due links (done ++ walk links agenda done) n := by
  fun_induction walk links agenda done with
  | case1 done =>
    rw [List.append_nil]
    intro n hn hdue
    exact absurd (h n hn hdue) List.not_mem_nil
  | case2 n agenda done hn ih =>
    rw [← List.append_cons] at ih
    apply ih
    intro m hm hdue
    obtain ⟨hd, hr⟩ := hdue
    rw [List.mem_append, List.mem_singleton, not_or] at hd
    apply List.mem_append.mpr
    by_cases hlink : Linked links n m
    · exact .inl (mem_heirs.mpr hlink)
    · have hbefore : Ready links done m := by
        intro l hl ht
        rcases List.mem_append.mp (hr l hl ht) with hs | hs
        · exact hs
        · exact absurd ⟨l, hl, List.mem_singleton.mp hs, ht⟩ hlink
      exact .inr ((List.mem_cons.mp (h m hm ⟨hd.1, hbefore⟩)).resolve_left hd.2)
  | case3 n agenda done hn ih =>
    apply ih
    intro m hm hdue
    rcases List.mem_cons.mp (h m hm hdue) with rfl | hm
    · exact absurd hdue hn
    · exact hm

theorem visitOrder_readyOrder (nodes : List Node) (links : List Link) :
    ReadyOrder links [] (visitOrder nodes links) := walk_readyOrder links _ []

theorem incoming_eq_nil_iff {links : List Link} {n : Node} :
    incoming links n = [] ↔ Ready links [] n := by
  unfold incoming Ready
  rw [List.filter_eq_nil_iff]
  simp

namespace Plan

theorem sources_eq (p : Plan) : p.sources = p.nodes.filter fun n => incoming p.links n = [] := by
  unfold Draft.sources
  apply List.filter_congr
  intro n _
  rw [Bool.eq_iff_iff]
  simp [incoming_eq_nil_iff, Ready]

theorem visitOrder_eq (p : Plan) : visitOrder p.nodes p.links = walk p.links p.initial [] := by
  rw [p.initial_eq, p.sources_eq]
  rfl

theorem mem_initial {p : Plan} {n : Node} :
    n ∈ p.initial ↔ n ∈ p.nodes ∧ incoming p.links n = [] := by
  rw [p.initial_eq, p.sources_eq, List.mem_filter, decide_eq_true_eq]

theorem target_notMem_initial {p : Plan} {l : Link} (hl : l ∈ p.links) : l.target ∉ p.initial := by
  intro h
  have hin : l ∈ incoming p.links l.target := mem_incoming.mpr ⟨hl, rfl⟩
  rw [(mem_initial.mp h).2] at hin
  cases hin

theorem not_due_of_visitOrder (p : Plan) {n : Node} (hn : n ∈ p.nodes) :
    ¬ Due p.links (visitOrder p.nodes p.links) n := by
  have hinit : ∀ m ∈ p.nodes, Due p.links [] m →
      m ∈ p.nodes.filter fun m => incoming p.links m = [] := by
    intro m hm hdue
    exact List.mem_filter.mpr ⟨hm, decide_eq_true (incoming_eq_nil_iff.mpr hdue.2)⟩
  exact not_due_of_walk hinit n hn

theorem mem_visitOrder (p : Plan) {n : Node} :
    n ∈ visitOrder p.nodes p.links ↔ n ∈ p.nodes := by
  constructor
  · apply mem_nodes_of_mem_walk (fun l hl => p.target_mem hl)
    intro m hm
    exact (List.mem_filter.mp hm).1
  · intro hn
    by_contra hmiss
    -- of the nodes that were missed, take one without a source among them
    have hne : (p.nodes.filter fun m => m ∉ visitOrder p.nodes p.links) ≠ [] :=
      List.ne_nil_of_mem (List.mem_filter.mpr ⟨hn, decide_eq_true hmiss⟩)
    obtain ⟨m, hm, hfirst⟩ := p.acyclic.exists_first hne
    obtain ⟨hm, hmo⟩ := List.mem_filter.mp hm
    apply p.not_due_of_visitOrder hm
    refine ⟨of_decide_eq_true hmo, ?_⟩
    intro l hl ht
    by_contra hs
    exact hfirst l.source (List.mem_filter.mpr ⟨p.source_mem hl, decide_eq_true hs⟩)
      ⟨l, hl, rfl, ht⟩

theorem visitOrder_perm (p : Plan) : (visitOrder p.nodes p.links).Perm p.nodes := by
  apply (List.perm_ext_iff_of_nodup (visitOrder_readyOrder _ _).nodup p.nodes_nodup).mpr
  intro n
  exact p.mem_visitOrder

end Plan
end Workflow
