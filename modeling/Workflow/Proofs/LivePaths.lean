import Workflow.Proofs.Execution
import Workflow.Proofs.Visits

/-!
# Live paths

A link is live when its source was executed and went on, on the branch of the link. The joins look
at the links into one node only; all the same a node is executed only at the end of a chain of live
links that begins at an initial node. Where all joins take any link, those ends are all executed.
-/

namespace Workflow

set_option autoImplicit false

/-- The links of a plan that lead, one after another, from an initial node to the given node. -/
inductive Chain (p : Plan) : List Link → Node → Prop where
  | start {n : Node} (h : n ∈ p.initial) : Chain p [] n
  | along {ls : List Link} {l : Link} (path : Chain p ls l.source) (h : l ∈ p.links) :
      Chain p (ls ++ [l]) l.target

/-- What lets a node that has incoming links run: its join takes some number of links that win. -/
theorem Draft.Admits.exists_wins {d : Draft} {r : Report} {n : Node} (h : d.Admits r n)
    (hn : incoming d.links n ≠ []) : ∃ l ∈ d.links, l.target = n ∧ Wins r l := by
  have hpos : 0 < (incoming d.links n).length := List.length_pos_iff.mpr hn
  have htakes := h.resolve_left hn
  have hwins : 0 < wins d.links r n := by
    unfold Join.Takes at htakes
    split at htakes
    · rw [htakes]
      exact hpos
    · exact htakes
    · rw [htakes]
      exact Nat.one_pos
  obtain ⟨l, hl, hw⟩ := List.countP_pos_iff.mp hwins
  obtain ⟨hl, ht⟩ := mem_incoming.mp hl
  exact ⟨l, hl, ht, of_decide_eq_true hw⟩

namespace Run

/-- The source was executed and went on, on the branch of the link. -/
def Live (r : Run) (l : Link) : Prop :=
  r.Executed l.source ∧ r.report.get? l.source = some (.proceed l.branch)

/-- The source was skipped, or went on, but not on the branch of the link. -/
def Dead (r : Run) (l : Link) : Prop :=
  r.report.get? l.source = some .skip ∨
    ∃ b, b ≠ l.branch ∧ r.report.get? l.source = some (.proceed b)

theorem Dead.not_live {r : Run} {l : Link} (h : r.Dead l) : ¬ r.Live l := by
  intro ⟨_, hl⟩
  rcases h with hskip | ⟨b, hb, hproceed⟩
  · rw [hskip] at hl
    cases hl
  · rw [hproceed] at hl
    cases hl
    exact hb rfl

def OnLivePath (r : Run) (n : Node) : Prop := ∃ ls, Chain r.plan ls n ∧ ∀ l ∈ ls, r.Live l

theorem OnLivePath.along {r : Run} {l : Link} (h : r.OnLivePath l.source) (hl : l ∈ r.plan.links)
    (hlive : r.Live l) : r.OnLivePath l.target := by
  obtain ⟨ls, hchain, hls⟩ := h
  refine ⟨ls ++ [l], hchain.along hl, ?_⟩
  intro k hk
  rcases List.mem_append.mp hk with hk | hk
  · exact hls k hk
  · exact List.mem_singleton.mp hk ▸ hlive

variable (p : Plan) (body : Node → Body) (c : Context)

theorem onLivePath_of_executed {n : Node} (h : (compute body (ofPlan p c)).2.Executed n) :
    (compute body (ofPlan p c)).2.OnLivePath n := by
  have hplan := plan_compute p body c
  -- along the links, not along the run: the source of a link that wins comes first in both
  induction n using p.acyclic.induction with
  | step n ih =>
    obtain ⟨hn, hadmits⟩ := (executed_iff p body c).mp h
    by_cases hin : incoming p.links n = []
    · have hinitial : n ∈ p.initial := Plan.mem_initial.mpr ⟨mem_nodes_of_report p body c hn, hin⟩
      exact ⟨[], .start (hplan.symm ▸ hinitial), fun l hl => by cases hl⟩
    · obtain ⟨l, hl, rfl, hwins⟩ := hadmits.exists_wins hin
      have hran : (compute body (ofPlan p c)).2.Executed l.source :=
        executed_of_proceed p body c hwins
      exact (ih l.source ⟨l, hl, rfl, rfl⟩ hran).along (hplan.symm ▸ hl) ⟨hran, hwins⟩

theorem executed_iff_of_ok (hok : (compute body (ofPlan p c)).1 = .ok ()) {n : Node}
    (hn : n ∈ p.nodes) :
    (compute body (ofPlan p c)).2.Executed n ↔
      p.Admits (compute body (ofPlan p c)).2.report n := by
  rw [executed_iff, and_iff_right (report_of_ok p body c hok hn)]

/-- A completed run has executed the end of every live path, where the joins take any link. -/
theorem executed_of_onLivePath (hjoin : ∀ n ∈ p.nodes, n ∉ p.initial → p.joinOf n = .any)
    (hok : (compute body (ofPlan p c)).1 = .ok ()) {n : Node}
    (h : (compute body (ofPlan p c)).2.OnLivePath n) :
    (compute body (ofPlan p c)).2.Executed n := by
  obtain ⟨ls, hchain, hlive⟩ := h
  rw [plan_compute p body c] at hchain
  rw [executed_iff]
  cases hchain with
  | start hn =>
    obtain ⟨hn, hin⟩ := Plan.mem_initial.mp hn
    exact ⟨report_of_ok p body c hok hn, .inl hin⟩
  | @along ls l _ hl =>
    have ht : l.target ∈ p.nodes := p.target_mem hl
    have hin : l ∈ incoming p.links l.target := mem_incoming.mpr ⟨hl, rfl⟩
    have hnot : l.target ∉ p.initial := Plan.target_notMem_initial hl
    obtain ⟨_, hproceed⟩ := hlive l (List.mem_append_right _ (List.mem_singleton.mpr rfl))
    refine ⟨report_of_ok p body c hok ht, .inr ?_⟩
    rw [hjoin l.target ht hnot]
    exact List.countP_pos_iff.mpr ⟨l, hin, decide_eq_true hproceed⟩

/-- A run executes nodes at the ends of live paths only: none that every path reaches over a dead
link. Where all nodes but the initial ones take any link, a completed run has executed exactly the
ends of the live paths. -/
theorem executed_on_live_paths :
    (∀ n, (compute body (ofPlan p c)).2.Executed n →
      ∃ ls, Chain p ls n ∧ ∀ l ∈ ls, (compute body (ofPlan p c)).2.Live l) ∧
    (∀ n, (∀ ls, Chain p ls n → ∃ l ∈ ls, (compute body (ofPlan p c)).2.Dead l) →
      ¬ (compute body (ofPlan p c)).2.Executed n) ∧
    ((∀ n ∈ p.nodes, n ∉ p.initial → p.joinOf n = .any) →
      (compute body (ofPlan p c)).1 = .ok () →
      ∀ n, (compute body (ofPlan p c)).2.Executed n ↔
        ∃ ls, Chain p ls n ∧ ∀ l ∈ ls, (compute body (ofPlan p c)).2.Live l) := by
  have hplan := plan_compute p body c
  have hlive : ∀ n, (compute body (ofPlan p c)).2.Executed n →
      ∃ ls, Chain p ls n ∧ ∀ l ∈ ls, (compute body (ofPlan p c)).2.Live l := by
    intro n hn
    obtain ⟨ls, hchain, hls⟩ := onLivePath_of_executed p body c hn
    exact ⟨ls, hplan ▸ hchain, hls⟩
  refine ⟨hlive, ?_, ?_⟩
  · intro n hcut hn
    obtain ⟨ls, hchain, hls⟩ := hlive n hn
    obtain ⟨l, hl, hdead⟩ := hcut ls hchain
    exact hdead.not_live (hls l hl)
  · intro hjoin hok n
    refine ⟨hlive n, ?_⟩
    rintro ⟨ls, hchain, hls⟩
    exact executed_of_onLivePath p body c hjoin hok ⟨ls, hplan.symm ▸ hchain, hls⟩

end Run
end Workflow
