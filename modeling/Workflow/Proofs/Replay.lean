import Workflow.Proofs.Perform

/-!
# Replaying a report

The join rule read off a finished report: which of its nodes ran follows from the outcomes that it
holds, and running those again from the first context gives every outcome and the last context. A
traversal decides on the outcomes recorded so far; by then those of a node's sources are final.
-/

namespace Workflow

set_option autoImplicit false

/-- Go through the entries of a report, which as a whole is `final`: a node that `final` admits has
the outcome of its body on the context so far, any other node is skipped and changes nothing. -/
inductive Replays (d : Draft) (body : Node → Body) (final : Report) :
    Context → List (Node × Outcome) → Context → Prop where
  | done (c : Context) : Replays d body final c [] c
  | run {c c' e : Context} {n : Node} {o : Outcome} {es : List (Node × Outcome)}
      (admitted : d.Admits final n) (ran : body n c = (o, c'))
      (rest : Replays d body final c' es e) :
      Replays d body final c ((n, o) :: es) e
  | skip {c e : Context} {n : Node} {es : List (Node × Outcome)}
      (refused : ¬ d.Admits final n) (rest : Replays d body final c es e) :
      Replays d body final c ((n, .skip) :: es) e

theorem Replays.resolve {d : Draft} {body : Node → Body} {final : Report} {n : Node}
    {c e : Context} {es : List (Node × Outcome)}
    (h : Replays d body final (d.resolve body final n c).2 es e) :
    Replays d body final c ((n, (d.resolve body final n c).1) :: es) e := by
  unfold Draft.resolve at h ⊢
  by_cases ha : d.Admits final n
  · rw [if_pos ha] at h ⊢
    exact .run ha rfl h
  · rw [if_neg ha] at h ⊢
    exact .skip ha h

namespace Draft
variable {d : Draft} {body : Node → Body} {n : Node} {ns : List Node} {s t : Stage}
  {a : Option Abort}

/-- What is recorded stays recorded. -/
theorem get?_perform_of_mem (h : d.perform body ns s = (a, t))
    (hns : ReadyOrder d.links s.report.keys ns) {m : Node} (hm : m ∈ s.report.keys) :
    t.report.get? m = s.report.get? m := by
  induction ns generalizing s with
  | nil =>
    cases h
    rfl
  | cons n ns ih =>
    obtain ⟨hn, hrest⟩ := hns
    have hk := keys_settle d body hn.1
    rw [← get?_settle_of_mem d body hn.1 hm]
    rcases perform_cons_cases h with ⟨f, _, _, rfl⟩ | ⟨_, h⟩
    · rfl
    · exact ih h (hk ▸ hrest) (hk ▸ List.mem_append_left _ hm)

/-- The sources of a ready node have their last outcomes, so the node resolves as it would by the
report at the end. -/
theorem resolve_eq_of_perform (h : d.perform body ns s = (a, t))
    (hns : ReadyOrder d.links s.report.keys ns) (hr : Ready d.links s.report.keys n) :
    d.resolve body s.report n = d.resolve body t.report n := by
  apply resolve_congr (.refl _) rfl
  intro l hl ht
  exact (get?_perform_of_mem h hns (hr l hl ht)).symm

theorem perform_replays (h : d.perform body ns s = (a, t))
    (hns : ReadyOrder d.links s.report.keys ns) :
    ∃ es, t.report.entries = s.report.entries ++ es ∧
      Replays d body t.report s.context es t.context := by
  induction ns generalizing s with
  | nil =>
    cases h
    exact ⟨[], by simp, .done _⟩
  | cons n ns ih =>
    have hresolve := resolve_eq_of_perform h hns hns.1.2
    have hentries := entries_settle d body hns.1.1
    have hcontext : (d.settle body n s).2.context = (d.resolve body t.report n s.context).2 :=
      congrArg (fun b : Body => (b s.context).2) hresolve
    rw [hresolve] at hentries
    -- whether the node aborts or not, the rest replays from the context that it left
    suffices hrest : ∃ es, t.report.entries = (d.settle body n s).2.report.entries ++ es ∧
        Replays d body t.report (d.settle body n s).2.context es t.context by
      obtain ⟨es, hes, hreplay⟩ := hrest
      rw [hentries, ← List.append_cons] at hes
      rw [hcontext] at hreplay
      exact ⟨_, hes, .resolve hreplay⟩
    rcases perform_cons_cases h with ⟨f, _, _, rfl⟩ | ⟨_, h⟩
    · exact ⟨[], by simp, .done _⟩
    · exact ih h (keys_settle d body hns.1.1 ▸ hns.2)

end Draft

/-- The report of a run, replayed in its own order from the context that the run started with, gives
the recorded outcomes and the context that the run left. -/
theorem Run.report_replays (p : Plan) (body : Node → Body) (c : Context) :
    Replays p.toDraft body (compute body (ofPlan p c)).2.report c
      (compute body (ofPlan p c)).2.report.entries (compute body (ofPlan p c)).2.context := by
  obtain ⟨a, t, hperform, _, hstage⟩ := compute_ofPlan p body c
  obtain ⟨es, hes, hreplay⟩ :=
    Draft.perform_replays hperform (visitOrder_readyOrder p.nodes p.links)
  have hreport : (compute body (ofPlan p c)).2.report = t.report := congrArg Stage.report hstage
  have hcontext : (compute body (ofPlan p c)).2.context = t.context :=
    congrArg Stage.context hstage
  have hentries : t.report.entries = es := hes
  rw [hreport, hcontext, hentries]
  exact hreplay

end Workflow
