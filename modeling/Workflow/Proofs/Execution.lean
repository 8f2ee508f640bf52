import Workflow.Proofs.Logs

/-!
# Which nodes were run

The log says of every node that a traversal reached what came of it. The nodes that were run, by the
log, are the recorded nodes that the report admits; every other recorded node was skipped. For the
event that recorded a node says of it what the report at the end says.
-/

namespace Workflow

set_option autoImplicit false

namespace Progress

/-- The log says that the node was run. -/
def Ran (s : Progress) (n : Node) : Prop := ∃ j k, Event.reached n j .run k ∈ s.log

/-- The log and the report say the same of every node. -/
structure Faithful (p : Plan) (s : Progress) : Prop where
  closed : Closed p.links s.report.keys
  ran_iff : ∀ m, s.Ran m ↔ m ∈ s.report.keys ∧ p.Admits s.report m
  skipped : ∀ m ∈ s.report.keys, ¬ p.Admits s.report m → s.report.get? m = some .skip

/-- A node is recorded once its sources are, and its event stays right about it. -/
theorem Logged.faithful {p : Plan} {body : Node → Body} {c : Context} {s : Progress}
    (h : s.Logged p body c) : s.Faithful p := by
  have hclosed : Closed p.links s.report.keys :=
    fun _ hm => Plan.verdict_ne_wait_iff.mp (h.finding_mem hm).2
  refine ⟨hclosed, ?_, ?_⟩
  · intro m
    constructor
    · rintro ⟨j, k, he⟩
      obtain ⟨_, hv, _⟩ := h.fits_last he (by simp)
      rw [h.keys]
      exact ⟨mem_settled_iff.mpr ⟨j, _, k, he, by simp⟩, (Plan.verdict_eq_run_iff.mp hv.symm).2⟩
    · rintro ⟨hm, ha⟩
      have he := (h.finding_mem hm).1
      rw [Plan.finding, Plan.verdict_eq_run_iff.mpr ⟨hclosed m hm, ha⟩] at he
      exact ⟨_, _, he⟩
  · intro m hm ha
    have he := (h.finding_mem hm).1
    rw [Plan.finding, Plan.verdict_eq_skip_iff.mpr ⟨hclosed m hm, ha⟩] at he
    have hskip := h.truthful.get?_of_skip he
    rw [h.redone] at hskip
    exact hskip

end Progress

namespace Run

/-- The log of the run says that the node was run. -/
def Executed (r : Run) (n : Node) : Prop := r.progress.Ran n

variable (p : Plan) (body : Node → Body) (c : Context)

theorem compute_faithful : (compute body (ofPlan p c)).2.progress.Faithful p :=
  (compute_logged p body c).faithful

theorem executed_iff {n : Node} :
    (compute body (ofPlan p c)).2.Executed n ↔
      n ∈ (compute body (ofPlan p c)).2.report.keys ∧
        p.Admits (compute body (ofPlan p c)).2.report n :=
  (compute_faithful p body c).ran_iff n

/-- Only a node that was executed goes on. -/
theorem executed_of_proceed {n : Node} {b : Branch}
    (h : (compute body (ofPlan p c)).2.report.get? n = some (.proceed b)) :
    (compute body (ofPlan p c)).2.Executed n := by
  have hn : n ∈ (compute body (ofPlan p c)).2.report.keys :=
    OrderedMap.get?_isSome_iff.mp (Option.isSome_iff_exists.mpr ⟨_, h⟩)
  rw [executed_iff]
  refine ⟨hn, ?_⟩
  by_contra ha
  have hskip := (compute_faithful p body c).skipped n hn ha
  have hskip : some (Outcome.proceed b) = some .skip := h.symm.trans hskip
  cases hskip

end Run
end Workflow
