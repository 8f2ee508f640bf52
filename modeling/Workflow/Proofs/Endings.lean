import Workflow.Proofs.Execution
import Workflow.Proofs.Replay
import Workflow.Proofs.Visits

/-!
# How a run ends

A run is completed when none of the bodies that it executed aborted. The first that aborts ends the
run: its node is recorded last, nothing that follows from it is recorded, and the context is as it
left it. Later calls change nothing.
-/

namespace Workflow

set_option autoImplicit false

section Replays
variable {d : Draft} {body : Node → Body} {final : Report} {es fs : List (Node × Outcome)}
  {c c' e : Context} {n : Node} {o : Outcome}

theorem Replays.of_append (h : Replays d body final c (es ++ fs) e) :
    ∃ c', Replays d body final c es c' ∧ Replays d body final c' fs e := by
  induction es generalizing c with
  | nil => exact ⟨c, .done c, h⟩
  | cons x es ih =>
    cases h with
    | run admitted ran rest =>
      obtain ⟨c', hes, hfs⟩ := ih rest
      exact ⟨c', .run admitted ran hes, hfs⟩
    | skip refused rest =>
      obtain ⟨c', hes, hfs⟩ := ih rest
      exact ⟨c', .skip refused hes, hfs⟩

theorem Replays.unique (h : Replays d body final c es e) (h' : Replays d body final c es c') :
    e = c' := by
  induction h with
  | done c =>
    cases h'
    rfl
  | run admitted ran _ ih =>
    cases h' with
    | run _ ran' rest' =>
      rw [ran] at ran'
      cases ran'
      exact ih rest'
    | skip refused _ => exact absurd admitted refused
  | skip refused _ ih =>
    cases h' with
    | run admitted _ _ => exact absurd admitted refused
    | skip _ rest' => exact ih rest'

theorem Replays.head_of_admits (h : Replays d body final c ((n, o) :: es) e)
    (hn : d.Admits final n) : (body n c).1 = o ∧ Replays d body final (body n c).2 es e := by
  cases h with
  | run _ ran rest =>
    rw [ran]
    exact ⟨rfl, rest⟩
  | skip refused _ => exact absurd hn refused

theorem Replays.admits_of_abort {f : Failure} (h : Replays d body final c ((n, .abort f) :: es) e) :
    d.Admits final n := by
  cases h with
  | run admitted _ _ => exact admitted

end Replays

namespace Draft
variable {d : Draft} {body : Node → Body} {ns : List Node} {s t : Stage}

theorem isAbort_of_perform (h : d.perform body ns s = (none, t))
    (hns : ReadyOrder d.links s.report.keys ns) :
    ∃ es, t.report.entries = s.report.entries ++ es ∧ ∀ x ∈ es, x.2.isAbort = false := by
  induction ns generalizing s with
  | nil =>
    cases h
    exact ⟨[], by simp, fun x hx => by cases hx⟩
  | cons n ns ih =>
    obtain ⟨hn, hrest⟩ := hns
    obtain ⟨ho, h⟩ := perform_cons_eq_none_iff.mp h
    obtain ⟨es, hes, hcalm⟩ := ih h (keys_settle d body hn.1 ▸ hrest)
    rw [entries_settle d body hn.1, ← List.append_cons] at hes
    refine ⟨_, hes, ?_⟩
    intro x hx
    rcases List.mem_cons.mp hx with rfl | hx
    · exact ho
    · exact hcalm x hx

/-- A performance that aborts records the abort last and no other one. -/
theorem entries_of_perform_abort {a : Abort} (h : d.perform body ns s = (some a, t))
    (hns : ReadyOrder d.links s.report.keys ns) :
    ∃ es, t.report.entries = s.report.entries ++ (es ++ [(a.node, .abort a.failure)]) ∧
      ∀ x ∈ es, x.2.isAbort = false := by
  obtain ⟨before, after, u, rfl, hu, hsettle⟩ := perform_abort_split h
  obtain ⟨hbefore, hrest⟩ := ReadyOrder.append_iff.mp hns
  obtain ⟨es, hes, hcalm⟩ := isAbort_of_perform hu hbefore
  have hnew : a.node ∉ u.report.keys := by
    rw [keys_perform hu hbefore]
    exact hrest.1.1
  have hentries := entries_settle d body hnew
  have ho : (d.resolve body u.report a.node u.context).1 = .abort a.failure :=
    congrArg Prod.fst hsettle
  rw [hsettle, ho, hes, List.append_assoc] at hentries
  exact ⟨es, hentries, hcalm⟩

section FromStart
variable {a : Option Abort} {c e : Context} {n : Node} {es fs : List (Node × Outcome)}

theorem replays_of_perform (h : d.perform body ns (.ofContext c) = (a, t))
    (hns : ReadyOrder d.links [] ns) :
    Replays d body t.report c t.report.entries t.context := by
  obtain ⟨es, hes, hreplay⟩ := perform_replays h hns
  rw [hes]
  exact hreplay

theorem outcome_eq_of_perform (h : d.perform body ns (.ofContext c) = (a, t))
    (hns : ReadyOrder d.links [] ns) {o : Outcome} (hes : t.report.entries = es ++ (n, o) :: fs)
    (hn : d.Admits t.report n) (he : Replays d body t.report c es e) : (body n e).1 = o := by
  have hreplay := replays_of_perform h hns
  rw [hes] at hreplay
  obtain ⟨e', he', hrest⟩ := hreplay.of_append
  rw [he.unique he']
  exact (hrest.head_of_admits hn).1

/-- An abort that is recorded last was raised by the body of its node, which left the context. -/
theorem raised_of_perform (h : d.perform body ns (.ofContext c) = (a, t))
    (hns : ReadyOrder d.links [] ns) {f : Failure}
    (hes : t.report.entries = es ++ [(n, .abort f)]) :
    d.Admits t.report n ∧ ∃ e, Replays d body t.report c es e ∧ body n e = (.abort f, t.context) := by
  have hreplay := replays_of_perform h hns
  rw [hes] at hreplay
  obtain ⟨e, he, hlast⟩ := hreplay.of_append
  have hn := hlast.admits_of_abort
  obtain ⟨ho, hrest⟩ := hlast.head_of_admits hn
  exact ⟨hn, e, he, Prod.ext ho (hrest.unique (.done _)).symm⟩

end FromStart
end Draft

namespace Run

/-- Call for the computation so many times; what each call comes back with, and the run then. -/
def computes (body : Node → Body) : Nat → Run → List (Except RunError Unit) × Run
  | 0, r => ([], r)
  | k + 1, r =>
    let x := compute body r
    let xs := computes body k x.2
    (x.1 :: xs.1, xs.2)

theorem compute_of_computed (body : Node → Body) {r : Run} (h : r.computed = true) :
    compute body r = (.error .alreadyComputed, r) := by
  unfold compute
  rw [if_pos h]

theorem computes_of_computed (body : Node → Body) (k : Nat) {r : Run} (h : r.computed = true) :
    computes body k r = (List.replicate k (.error .alreadyComputed), r) := by
  induction k with
  | zero => rfl
  | succ k ih =>
    rw [computes, compute_of_computed body h]
    simp only [ih, List.replicate_succ]

/-- The node was executed, on the context that the entries before its own had left. -/
def ExecutedOn (r : Run) (body : Node → Body) (c : Context) (n : Node) (d : Context) : Prop :=
  r.Executed n ∧ ∃ before o after, r.report.entries = before ++ (n, o) :: after ∧
    Replays r.plan.toDraft body r.report c before d

/-- The run was ended by the failure of the node. -/
structure AbortedAt (body : Node → Body) (c : Context) (r : Run) (n : Node) (f : Failure) :
    Prop where
  raised : ∃ d, r.ExecutedOn body c n d ∧ body n d = (.abort f, r.context)
  last : r.report.entries.getLast? = some (n, .abort f)
  only : ∀ x ∈ r.report.entries, x.2.isAbort = true → x.1 = n
  below : ∀ m, Relation.TransGen (Linked r.plan.links) n m → m ∉ r.report.keys

/-- What the first call for the computation comes to. -/
structure Ends (body : Node → Body) (c : Context) (x : Except RunError Unit × Run) : Prop where
  ok_or_aborted : x.1 = .ok () ∨ ∃ n f, x.1 = .error (.aborted n f)
  completed_iff : x.2.completed = true ↔ x.1 = .ok ()
  /-- What is recorded of a node that was executed is what its body came to. -/
  recorded : ∀ n, x.2.Executed n →
    ∃ e, x.2.ExecutedOn body c n e ∧ x.2.report.get? n = some (body n e).1
  ok_iff : x.1 = .ok () ↔ ∀ n d, x.2.ExecutedOn body c n d → (body n d).1.isAbort = false
  aborted : ∀ n f, x.1 = .error (.aborted n f) → AbortedAt body c x.2 n f

variable (p : Plan) (body : Node → Body) (c : Context)

theorem get?_of_executedOn {n : Node} {e : Context}
    (h : (compute body (ofPlan p c)).2.ExecutedOn body c n e) :
    (compute body (ofPlan p c)).2.report.get? n = some (body n e).1 := by
  obtain ⟨hran, es, o, fs, hes, he⟩ := h
  obtain ⟨_, hadmits⟩ := (executed_iff p body c).mp hran
  obtain ⟨a, s, hperform, hc⟩ := compute_performs p body c
  rw [hc] at hes he hadmits ⊢
  have ho := Draft.outcome_eq_of_perform hperform (visitOrder_readyOrder _ _) hes hadmits he
  apply OrderedMap.get?_eq_some_iff.mpr
  rw [hes, ho]
  exact List.mem_append_right _ List.mem_cons_self

theorem exists_executedOn {n : Node} (h : (compute body (ofPlan p c)).2.Executed n) :
    ∃ e, (compute body (ofPlan p c)).2.ExecutedOn body c n e := by
  obtain ⟨hn, _⟩ := (executed_iff p body c).mp h
  obtain ⟨x, hx, rfl⟩ := List.mem_map.mp hn
  obtain ⟨es, fs, hes⟩ := List.append_of_mem hx
  suffices hbefore : ∃ e, Replays (compute body (ofPlan p c)).2.plan.toDraft body
      (compute body (ofPlan p c)).2.report c es e by
    obtain ⟨e, he⟩ := hbefore
    exact ⟨e, h, es, x.2, fs, hes, he⟩
  obtain ⟨a, s, hperform, hc⟩ := compute_performs p body c
  have hreplay := Draft.replays_of_perform hperform (visitOrder_readyOrder _ _)
  rw [hc] at hes ⊢
  have hes : s.stage.report.entries = es ++ x :: fs := hes
  rw [hes] at hreplay
  obtain ⟨e, he, _⟩ := hreplay.of_append
  exact ⟨e, he⟩

theorem isAbort_of_ok (h : (compute body (ofPlan p c)).1 = .ok ()) :
    ∀ x ∈ (compute body (ofPlan p c)).2.report.entries, x.2.isAbort = false := by
  obtain ⟨a, s, hperform, hc⟩ := compute_performs p body c
  rw [hc] at h ⊢
  cases a with
  | none =>
    obtain ⟨es, hes, hcalm⟩ := Draft.isAbort_of_perform hperform (visitOrder_readyOrder _ _)
    have hes : s.report.entries = es := hes
    intro x hx
    exact hcalm x (hes ▸ hx)
  | some a => cases h

theorem entries_of_aborted {n : Node} {f : Failure}
    (h : (compute body (ofPlan p c)).1 = .error (.aborted n f)) :
    ∃ es, (compute body (ofPlan p c)).2.report.entries = es ++ [(n, .abort f)] ∧
      (∀ x ∈ es, x.2.isAbort = false) ∧
      ∃ e, (compute body (ofPlan p c)).2.ExecutedOn body c n e ∧
        body n e = (.abort f, (compute body (ofPlan p c)).2.context) := by
  have hran := @executed_iff p body c n
  obtain ⟨a, s, hperform, hc⟩ := compute_performs p body c
  rw [hc] at h hran ⊢
  cases a with
  | none => cases h
  | some a =>
    cases h
    have horder := visitOrder_readyOrder p.nodes p.links
    obtain ⟨es, hes, hcalm⟩ := Draft.entries_of_perform_abort hperform horder
    have hes : s.report.entries = es ++ [(a.node, .abort a.failure)] := hes
    obtain ⟨hadmits, e, he, hbody⟩ := Draft.raised_of_perform hperform horder hes
    have hn : a.node ∈ s.report.keys := by
      rw [OrderedMap.keys, hes]
      simp
    exact ⟨es, hes, hcalm, e, ⟨hran.mpr ⟨hn, hadmits⟩, es, _, [], hes, he⟩, hbody⟩

theorem abortedAt_of_aborted {n : Node} {f : Failure}
    (h : (compute body (ofPlan p c)).1 = .error (.aborted n f)) :
    AbortedAt body c (compute body (ofPlan p c)).2 n f := by
  have hplan : (compute body (ofPlan p c)).2.plan = p := plan_compute p body c
  have horder := report_readyOrder p body c
  obtain ⟨es, hes, hcalm, hraised⟩ := entries_of_aborted p body c h
  refine ⟨hraised, ?_, ?_, ?_⟩
  · rw [hes, List.getLast?_concat]
  · intro x hx habort
    rw [hes] at hx
    rcases List.mem_append.mp hx with hx | hx
    · rw [hcalm x hx] at habort
      cases habort
    · rw [List.mem_singleton.mp hx]
  · intro m hm
    rw [hplan] at hm
    have hkeys : (compute body (ofPlan p c)).2.report.keys = es.map Prod.fst ++ [n] := by
      rw [OrderedMap.keys, hes, List.map_append]
      rfl
    rw [hkeys] at horder ⊢
    exact horder.notMem_of_transGen p.acyclic hm

theorem compute_ends : Ends body c (compute body (ofPlan p c)) where
  ok_or_aborted := compute_ok_or_aborted p body c
  completed_iff := completed_compute p body c
  recorded := by
    intro n hn
    obtain ⟨e, he⟩ := exists_executedOn p body c hn
    exact ⟨e, he, get?_of_executedOn p body c he⟩
  ok_iff := by
    constructor
    · intro hok n e hran
      exact isAbort_of_ok p body c hok _
        (OrderedMap.get?_eq_some_iff.mp (get?_of_executedOn p body c hran))
    · intro hcalm
      rcases compute_ok_or_aborted p body c with hok | ⟨n, f, haborted⟩
      · exact hok
      · obtain ⟨e, hran, hbody⟩ := (abortedAt_of_aborted p body c haborted).raised
        have habort := hcalm n e hran
        rw [hbody] at habort
        cases habort
  aborted := fun _ _ h => abortedAt_of_aborted p body c h

/-- The first call ends the run, completed when no body that was executed aborted, or else aborted
by the first that did; every later call is refused and leaves the run as it is. -/
theorem first_call_decides (k : Nat) :
    Ends body c (compute body (ofPlan p c)) ∧
      computes body (k + 1) (ofPlan p c) =
        ((compute body (ofPlan p c)).1 :: List.replicate k (.error .alreadyComputed),
          (compute body (ofPlan p c)).2) := by
  refine ⟨compute_ends p body c, ?_⟩
  rw [computes]
  simp only [computes_of_computed body k (computed_compute p body c)]

end Run
end Workflow
