import Workflow.Proofs.Perform

/-!
# What a run visits

A completed run has recorded the nodes of its plan in their visit order, an aborted run the part of
that order up to the node that aborted. Joins, bodies and contexts decide where a run ends, never
where it goes.
-/

namespace Workflow

set_option autoImplicit false

/-- A run that goes along a list of nodes: through all of it, or up to the node that ended it. -/
def GoesAlong (order : List Node) : Except RunError Unit × Run → Prop
  | (.ok (), r) => r.report.keys = order
  | (.error (.aborted n _), r) =>
    ∃ before after, order = before ++ n :: after ∧ r.report.keys = before ++ [n]
  | (.error _, _) => False

theorem GoesAlong.part {order : List Node} {x : Except RunError Unit × Run}
    (h : GoesAlong order x) : x.2.report.keys <+: order := by
  unfold GoesAlong at h
  split at h
  · exact h ▸ List.prefix_refl _
  · obtain ⟨before, after, hsplit, hkeys⟩ := h
    exact ⟨after, by rw [hkeys, hsplit, ← List.append_cons]⟩
  · cases h

theorem GoesAlong.of_ok {order : List Node} {x : Except RunError Unit × Run}
    (h : GoesAlong order x) (hx : x.1 = .ok ()) : x.2.report.keys = order := by
  obtain ⟨result, r⟩ := x
  subst hx
  exact h

theorem GoesAlong.of_aborted {order : List Node} {x : Except RunError Unit × Run}
    (h : GoesAlong order x) {n : Node} {f : Failure} (hx : x.1 = .error (.aborted n f)) :
    ∃ before after, order = before ++ n :: after ∧ x.2.report.keys = before ++ [n] := by
  obtain ⟨result, r⟩ := x
  subst hx
  exact h

namespace Run
variable (p : Plan) (body : Node → Body) (c : Context)

theorem compute_goesAlong :
    GoesAlong (visitOrder p.nodes p.links) (compute body (ofPlan p c)) := by
  obtain ⟨a, t, hperform, hresult, hstage⟩ := compute_ofPlan p body c
  have hkeys : (compute body (ofPlan p c)).2.report.keys = t.report.keys :=
    congrArg (fun s : Stage => s.report.keys) hstage
  have horder := visitOrder_readyOrder p.nodes p.links
  rcases hc : compute body (ofPlan p c) with ⟨result, r⟩
  rw [hc] at hresult hkeys
  cases a with
  | none =>
    subst hresult
    exact hkeys.trans (Draft.keys_perform hperform horder)
  | some a =>
    subst hresult
    obtain ⟨before, after, hsplit, ht⟩ := Draft.keys_perform_abort hperform horder
    exact ⟨before, after, hsplit, hkeys.trans ht⟩

theorem report_readyOrder : ReadyOrder p.links [] (compute body (ofPlan p c)).2.report.keys := by
  obtain ⟨rest, hrest⟩ := (compute_goesAlong p body c).part
  have horder := visitOrder_readyOrder p.nodes p.links
  rw [← hrest] at horder
  exact (ReadyOrder.append_iff.mp horder).1

theorem mem_nodes_of_report {n : Node} (h : n ∈ (compute body (ofPlan p c)).2.report.keys) :
    n ∈ p.nodes :=
  p.mem_visitOrder.mp ((compute_goesAlong p body c).part.subset h)

theorem report_of_ok (hok : (compute body (ofPlan p c)).1 = .ok ()) {n : Node} (hn : n ∈ p.nodes) :
    n ∈ (compute body (ofPlan p c)).2.report.keys := by
  rw [(compute_goesAlong p body c).of_ok hok]
  exact p.mem_visitOrder.mpr hn

/-- Every node is reported at most once and after the sources of all its links; a completed run has
reported exactly the nodes of the plan, so that none of them waits any longer. -/
theorem report_complete :
    (compute body (ofPlan p c)).2.report.keys.Nodup ∧
      (∀ before n after, (compute body (ofPlan p c)).2.report.keys = before ++ n :: after →
        ∀ l ∈ p.links, l.target = n → l.source ∈ before) ∧
      ((compute body (ofPlan p c)).1 = .ok () →
        (compute body (ofPlan p c)).2.report.keys.Perm p.nodes ∧
          ∀ n ∈ p.nodes, p.verdict (compute body (ofPlan p c)).2.report n ≠ .wait) := by
  have hready := report_readyOrder p body c
  refine ⟨hready.nodup, ?_, ?_⟩
  · intro before n after hkeys
    rw [hkeys] at hready
    exact hready.ready_of_append
  · intro hok
    have hperm : (compute body (ofPlan p c)).2.report.keys.Perm p.nodes := by
      rw [(compute_goesAlong p body c).of_ok hok]
      exact p.visitOrder_perm
    refine ⟨hperm, ?_⟩
    intro n _
    have hall : Ready p.links (compute body (ofPlan p c)).2.report.keys n := by
      intro l hl _
      exact hperm.mem_iff.mpr (p.source_mem hl)
    rw [p.verdict_eq, if_pos hall]
    split <;> simp

theorem compute_eq_ok (h : ∀ n ∈ p.nodes, ∀ c, (body n c).1.isAbort = false) :
    (compute body (ofPlan p c)).1 = .ok () := by
  obtain ⟨a, t, hperform, hresult, _⟩ := compute_ofPlan p body c
  have hall : ∀ n ∈ visitOrder p.nodes p.links, ∀ c, (body n c).1.isAbort = false :=
    fun n hn => h n (p.mem_visitOrder.mp hn)
  obtain ⟨u, hu⟩ := Draft.perform_eq_none hall (.ofContext c)
  rw [hu] at hperform
  cases hperform
  exact hresult

end Run

/-- One order of the nodes is that of all runs of all plans that declare these nodes and links; so
two runs of one plan differ at most in how far they go. -/
structure StaticOrder (nodes : List Node) (links : List Link) (order : List Node) : Prop where
  perm : order.Perm nodes
  goesAlong : ∀ p : Plan, p.nodes = nodes → p.links = links →
    ∀ (body : Node → Body) (c : Context), GoesAlong order (Run.compute body (.ofPlan p c))
  comparable : ∀ p : Plan, p.nodes = nodes → p.links = links →
    ∀ (body body' : Node → Body) (c c' : Context),
      (Run.compute body (.ofPlan p c)).2.report.keys <+:
          (Run.compute body' (.ofPlan p c')).2.report.keys ∨
        (Run.compute body' (.ofPlan p c')).2.report.keys <+:
          (Run.compute body (.ofPlan p c)).2.report.keys

/-- Joins, bodies, outcomes and contexts have no say in the order of the visits. -/
theorem visit_order_static {nodes : List Node} {links : List Link} (h : defects nodes links = []) :
    StaticOrder nodes links (visitOrder nodes links) := by
  let bare : Plan := Draft.compile ⟨nodes, links, ∅⟩ h
  refine ⟨bare.visitOrder_perm, ?_, ?_⟩
  · intro p hnodes hlinks body c
    subst hnodes hlinks
    exact Run.compute_goesAlong p body c
  · intro p hnodes hlinks body body' c c'
    subst hnodes hlinks
    exact List.prefix_or_prefix_of_prefix (Run.compute_goesAlong p body c).part
      (Run.compute_goesAlong p body' c').part

namespace Sample

def fetch : Node := ⟨0, "fetch", false⟩
def left : Node := ⟨1, "left", false⟩
def right : Node := ⟨2, "right", false⟩
def check : Node := ⟨3, "check", true⟩
def ship : Node := ⟨4, "ship", false⟩
def drop : Node := ⟨5, "drop", false⟩

/-- Two arms from `fetch` meet in the decision `check`, which answers for `ship` or for `drop`. -/
def nodes : List Node := [fetch, left, right, check, ship, drop]

def links : List Link :=
  [⟨fetch, left, none, rfl, by decide⟩, ⟨fetch, right, none, rfl, by decide⟩,
    ⟨left, check, none, rfl, by decide⟩, ⟨right, check, none, rfl, by decide⟩,
    ⟨check, ship, some true, rfl, by decide⟩, ⟨check, drop, some false, rfl, by decide⟩]

theorem sound : defects nodes links = [] := by decide +kernel

end Sample

theorem visit_order_static_sample : defects Sample.nodes Sample.links = [] ∧
    StaticOrder Sample.nodes Sample.links (visitOrder Sample.nodes Sample.links) :=
  ⟨Sample.sound, visit_order_static Sample.sound⟩

example : visitOrder Sample.nodes Sample.links = Sample.nodes := by decide +kernel

end Workflow
