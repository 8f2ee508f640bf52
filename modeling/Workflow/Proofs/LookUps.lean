import Workflow.Proofs.Perform

/-!
# Look-ups that may fail

A plan answers every look-up of links, a graph only once it is active. A traversal of a graph makes
its look-ups one by one and ends with the error of the first that fails: the sources of a node when
the node is reached, and after the node is recorded its targets, one branch after the other, each
when its turn comes. On an active graph no look-up fails, and the traversal is that of the plan; so
a run that could be started ends well or with the failure of a node.
-/

namespace Workflow

set_option autoImplicit false

/-- What is left to do: reach a node, or look up the targets of a node on a branch. -/
inductive Errand where
  | reach (n : Node)
  | follow (n : Node) (b : Branch)

namespace Errand

/-- The nodes that an errand leads to. -/
def nodes (links : List Link) : Errand → List Node
  | reach n => [n]
  | follow n b => (links.filter fun l => l.source = n ∧ l.branch = b).map Link.target

def isLookUp : Errand → Bool
  | reach _ => false
  | follow _ _ => true

theorem nodes_cons_reach (links : List Link) (n : Node) (agenda : List Errand) :
    (reach n :: agenda).flatMap (nodes links) = n :: agenda.flatMap (nodes links) := by
  rw [List.flatMap_cons, nodes, List.singleton_append]

theorem nodes_reach (links : List Link) (ns : List Node) :
    (ns.map reach).flatMap (nodes links) = ns := by
  rw [List.flatMap_map]
  exact List.flatMap_singleton' ns

theorem nodes_follow (links : List Link) (n : Node) :
    (n.outgoing.map (follow n)).flatMap (nodes links) = heirs links n := by
  rw [List.flatMap_map]
  rfl

theorem countP_reach (ns : List Node) : (ns.map reach).countP isLookUp = 0 := by
  rw [List.countP_map]
  exact List.countP_eq_zero.mpr fun _ _ => Bool.false_ne_true

end Errand

namespace Graph
variable {g : Graph} {body : Node → Body} {n : Node} {b : Branch} {s t : Progress}

/-- The sources of all links that enter a node, looked up branch by branch. -/
def feeds (g : Graph) (n : Node) : Except GraphError (List (Node × Branch)) := do
  let found ← Branch.all.mapM fun b => do
    let ms ← g.feeding n b
    .ok (ms.map fun m => (m, b))
  .ok found.flatten

def reach (g : Graph) (body : Node → Body) (n : Node) (s : Progress) :
    Except GraphError (Visit × Progress) :=
  if s.report.contains n then .ok (.pass, s)
  else do
    let found ← g.feeds n
    let k := s.report.tally found
    .ok (s.enact n (g.joinOf n) (k.verdict (g.joinOf n)) k (body n))

theorem reach_eq_ok {v : Visit} (h : g.reach body n s = .ok (v, t)) :
    v = .pass ∧ t = s ∨ n ∉ s.report.keys ∧ ∃ j w k, s.enact n j w k (body n) = (v, t) := by
  unfold reach at h
  split at h
  · cases h
    exact .inl ⟨rfl, rfl⟩
  · rename_i hn
    cases hfeeds : g.feeds n with
    | error e =>
      rw [hfeeds] at h
      cases h
    | ok found =>
      rw [hfeeds] at h
      exact .inr ⟨mt OrderedMap.contains_iff.mpr hn, _, _, _, Except.ok.inj h⟩

theorem report_of_reach_pass (h : g.reach body n s = .ok (.pass, t)) : t.report = s.report := by
  rcases reach_eq_ok h with ⟨_, rfl⟩ | ⟨_, j, w, k, h⟩
  · rfl
  · exact Progress.report_of_enact_pass h

theorem report_of_reach_resolve (h : g.reach body n s = .ok (.resolve, t)) :
    n ∉ s.report.keys ∧ ∃ o, t.report = s.report.insert n o := by
  rcases reach_eq_ok h with ⟨hpass, _⟩ | ⟨hn, j, w, k, h⟩
  · cases hpass
  · exact ⟨hn, Progress.report_of_enact_resolve h⟩

theorem follow_eq_ok {ms : List Node} (h : g.follow n b = .ok ms) :
    ms = Errand.nodes g.links (.follow n b) := by
  cases g with
  | building d => cases h
  | active p =>
    cases h
    exact p.follow_eq n b

/-- Run the errands of an agenda and all that follow from them, up to the first look-up that fails
or the first node that aborts. -/
def traverse (g : Graph) (body : Node → Body) :
    List Errand → Progress → Except RunError Unit × Progress
  | [], s => (.ok (), s)
  | .reach n :: agenda, s =>
    match _h : g.reach body n s with
    | .error e => (.error (.graph e), s)
    | .ok (.pass, t) => traverse g body agenda t
    | .ok (.resolve, t) => traverse g body (n.outgoing.map (.follow n) ++ agenda) t
    | .ok (.stop a, t) => (.error (.aborted a.node a.failure), t)
  | .follow n b :: agenda, s =>
    match _h : g.follow n b with
    | .error e => (.error (.graph e), s)
    | .ok ms => traverse g body (ms.map .reach ++ agenda) s
termination_by agenda s =>
  -- a look-up leads to the nodes that it finds, and leaves one look-up less to make
  ((agenda.flatMap (Errand.nodes g.links)).length + (pending g.links s.report.keys).length,
    agenda.countP Errand.isLookUp)
decreasing_by
  · apply Prod.Lex.left
    rw [report_of_reach_pass _h, Errand.nodes_cons_reach, List.length_cons]
    omega
  · apply Prod.Lex.left
    obtain ⟨hn, o, ho⟩ := report_of_reach_resolve _h
    have := length_pending_concat g.links hn
    rw [ho, OrderedMap.keys_insert, if_neg hn, List.flatMap_append, Errand.nodes_follow,
      Errand.nodes_cons_reach, List.length_append, List.length_cons]
    omega
  · rw [List.flatMap_append, Errand.nodes_reach, follow_eq_ok _h, List.flatMap_cons]
    apply Prod.Lex.right
    rw [List.countP_append, Errand.countP_reach, List.countP_cons]
    simp [Errand.isLookUp]

/-- A graph that is being built answers no look-up. -/
theorem traverse_building (d : Draft) (body : Node → Body) (hn : n ∉ s.report.keys)
    (agenda : List Errand) :
    (building d).traverse body (.reach n :: agenda) s = (.error (.graph .notActivated), s) := by
  have hreach : (building d).reach body n s = .error .notActivated := by
    unfold reach
    rw [if_neg (mt OrderedMap.contains_iff.mp hn)]
    rfl
  rw [traverse]
  split <;> simp_all

section Active
variable (p : Plan)

theorem feeds_active (n : Node) : (active p).feeds n = .ok (p.feeds n) := rfl

theorem reach_active (body : Node → Body) (n : Node) (s : Progress) :
    (active p).reach body n s = .ok (p.reach body n s) := by
  unfold reach Plan.reach
  split
  · rfl
  · rw [feeds_active]
    rfl

theorem follow_active (n : Node) (b : Branch) :
    (active p).follow n b = .ok (Errand.nodes p.links (.follow n b)) :=
  congrArg Except.ok (p.follow_eq n b)

/-- On an active graph the traversal is that of the plan, over the nodes that its errands lead to. -/
theorem traverse_active (body : Node → Body) (agenda : List Errand) (s : Progress) :
    (active p).traverse body agenda s =
      (p.traverse body (agenda.flatMap (Errand.nodes p.links)) s).map Abort.result id := by
  fun_induction traverse (active p) body agenda s with
  | case1 s =>
    rw [List.flatMap_nil, Plan.traverse_nil]
    rfl
  | case2 n agenda s e h =>
    rw [reach_active] at h
    cases h
  | case3 n agenda s t h ih =>
    rw [reach_active, Except.ok.injEq] at h
    rw [Errand.nodes_cons_reach, Plan.traverse_cons, h]
    exact ih
  | case4 n agenda s t h ih =>
    rw [reach_active, Except.ok.injEq] at h
    rw [Errand.nodes_cons_reach, Plan.traverse_cons, h, ih, List.flatMap_append,
      Errand.nodes_follow, ← p.successors_eq]
  | case5 n agenda s a t h =>
    rw [reach_active, Except.ok.injEq] at h
    rw [Errand.nodes_cons_reach, Plan.traverse_cons, h]
    rfl
  | case6 n b agenda s e h => cases h
  | case7 n b agenda s ms h ih =>
    rw [follow_active, Except.ok.injEq] at h
    rw [ih, List.flatMap_append, Errand.nodes_reach, ← h, List.flatMap_cons]

end Active
end Graph

/-- A run that could be started computes what the look-ups of its graph come to, and closes its log;
none of the look-ups fails. -/
theorem Run.compute_looks_up {g : Graph} {c : Context} {r : Run} (h : start g c = .ok r)
    (body : Node → Body) : ∃ (s : Progress) (closing : Event),
      g.traverse body (g.initial.map .reach) (r.progress.tell (.started g.initial.length)) =
          ((compute body r).1, s) ∧
        (compute body r).2.progress = s.tell closing ∧
        ∀ e, (compute body r).1 ≠ .error (.graph e) := by
  cases g with
  | building d => cases h
  | active p =>
    cases h
    obtain ⟨a, s, ht, hc⟩ := compute_eq p body c
    refine ⟨s, Abort.closing s.report.size a, ?_, by rw [hc], ?_⟩
    · rw [Graph.traverse_active, Errand.nodes_reach, hc]
      exact congrArg (Prod.map Abort.result id) ht
    · intro e
      rw [hc]
      cases a <;> simp [Abort.result]

end Workflow
