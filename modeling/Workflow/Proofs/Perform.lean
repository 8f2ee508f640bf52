import Workflow.Proofs.VisitOrder
import Workflow.Run

/-!
# A traversal performs its visit order

What a traversal does to the context and the report splits in two: an order of the nodes that
depends on the nodes and links alone, and the performance of a list of nodes, one after another up
to the first that aborts. A run of a plan performs the visit order of the plan.
-/

namespace Workflow

set_option autoImplicit false

/-- What a traversal has come to, its log left out. -/
structure Stage where
  context : Context
  report : Report

def Progress.stage (s : Progress) : Stage := ⟨s.context, s.report⟩

namespace Draft

def settle (d : Draft) (body : Node → Body) (n : Node) (s : Stage) : Outcome × Stage :=
  let x := d.resolve body s.report n s.context
  (x.1, ⟨x.2, s.report.insert n x.1⟩)

/-- Settle the nodes in turn, up to the first that aborts. -/
def perform (d : Draft) (body : Node → Body) : List Node → Stage → Option Abort × Stage
  | [], s => (none, s)
  | n :: ns, s =>
    match d.settle body n s with
    | (.abort f, t) => (some ⟨n, f⟩, t)
    | (_, t) => d.perform body ns t

section Perform
variable {d : Draft} {body : Node → Body} {n : Node} {ns ms : List Node} {s t u : Stage}

theorem perform_cons_abort {f : Failure} (h : (d.settle body n s).1 = .abort f) :
    d.perform body (n :: ns) s = (some ⟨n, f⟩, (d.settle body n s).2) := by
  rw [perform]
  split <;> simp_all

theorem perform_cons (h : (d.settle body n s).1.isAbort = false) :
    d.perform body (n :: ns) s = d.perform body ns (d.settle body n s).2 := by
  rw [perform]
  split <;> simp_all [Outcome.isAbort]

/-- All that can happen to the first node of a list. -/
theorem perform_cons_cases {a : Option Abort} (h : d.perform body (n :: ns) s = (a, u)) :
    (∃ f, (d.settle body n s).1 = .abort f ∧ a = some ⟨n, f⟩ ∧ (d.settle body n s).2 = u) ∨
      ((d.settle body n s).1.isAbort = false ∧
        d.perform body ns (d.settle body n s).2 = (a, u)) := by
  cases ho : (d.settle body n s).1.isAbort with
  | false =>
    rw [perform_cons ho] at h
    exact .inr ⟨rfl, h⟩
  | true =>
    obtain ⟨f, hf⟩ := Outcome.isAbort_iff.mp ho
    rw [perform_cons_abort hf] at h
    cases h
    exact .inl ⟨f, hf, rfl, rfl⟩

theorem perform_cons_eq_none_iff :
    d.perform body (n :: ns) s = (none, u) ↔
      (d.settle body n s).1.isAbort = false ∧
        d.perform body ns (d.settle body n s).2 = (none, u) := by
  constructor
  · intro h
    rcases perform_cons_cases h with ⟨f, _, hnone, _⟩ | hrest
    · cases hnone
    · exact hrest
  · intro ⟨ho, h⟩
    rw [perform_cons ho, h]

theorem perform_congr_of_resolve {e : Draft}
    (h : ∀ n ∈ ns, ∀ r, d.resolve body r n = e.resolve body r n) (s : Stage) :
    d.perform body ns s = e.perform body ns s := by
  induction ns generalizing s with
  | nil => rfl
  | cons n ns ih =>
    have hset : d.settle body n s = e.settle body n s := by
      unfold settle
      rw [h n List.mem_cons_self]
    rw [perform, perform, hset]
    split
    · rfl
    · exact ih (fun k hk => h k (List.mem_cons_of_mem n hk)) _

theorem perform_eq_none (h : ∀ n ∈ ns, ∀ c, (body n c).1.isAbort = false) (s : Stage) :
    ∃ t, d.perform body ns s = (none, t) := by
  induction ns generalizing s with
  | nil => exact ⟨s, rfl⟩
  | cons n ns ih =>
    have ho : (d.settle body n s).1.isAbort = false := by
      unfold settle resolve
      split
      · exact h n List.mem_cons_self s.context
      · rfl
    obtain ⟨t, ht⟩ := ih (fun k hk => h k (List.mem_cons_of_mem n hk)) (d.settle body n s).2
    exact ⟨t, perform_cons_eq_none_iff.mpr ⟨ho, ht⟩⟩

theorem settle_report : (d.settle body n s).2.report =
    s.report.insert n (d.resolve body s.report n s.context).1 := rfl

theorem keys_settle (d : Draft) (body : Node → Body) (h : n ∉ s.report.keys) :
    (d.settle body n s).2.report.keys = s.report.keys ++ [n] := by
  rw [settle_report, OrderedMap.keys_insert, if_neg h]

theorem entries_settle (d : Draft) (body : Node → Body) (h : n ∉ s.report.keys) :
    (d.settle body n s).2.report.entries =
      s.report.entries ++ [(n, (d.resolve body s.report n s.context).1)] := by
  rw [settle_report]
  exact OrderedMap.entries_insert_of_notMem h _

theorem get?_settle_of_mem (d : Draft) (body : Node → Body) {m : Node} (h : n ∉ s.report.keys)
    (hm : m ∈ s.report.keys) : (d.settle body n s).2.report.get? m = s.report.get? m := by
  have hne : m ≠ n := fun e => h (e ▸ hm)
  rw [settle_report, OrderedMap.get?_insert, if_neg hne]

theorem keys_perform (h : d.perform body ns s = (none, t))
    (hns : ReadyOrder d.links s.report.keys ns) : t.report.keys = s.report.keys ++ ns := by
  induction ns generalizing s with
  | nil =>
    cases h
    simp
  | cons n ns ih =>
    obtain ⟨hn, hrest⟩ := hns
    have hk := keys_settle d body hn.1
    have ht := ih (perform_cons_eq_none_iff.mp h).2 (hk ▸ hrest)
    rw [ht, hk, ← List.append_cons]

/-- A performance that aborts does so at one of its nodes, those before it having gone well. -/
theorem perform_abort_split {a : Abort} (h : d.perform body ns s = (some a, t)) :
    ∃ before after u, ns = before ++ a.node :: after ∧ d.perform body before s = (none, u) ∧
      d.settle body a.node u = (.abort a.failure, t) := by
  induction ns generalizing s with
  | nil => cases h
  | cons n ns ih =>
    rcases perform_cons_cases h with ⟨f, hf, ha, ht⟩ | ⟨ho, h⟩
    · cases ha
      exact ⟨[], ns, s, rfl, rfl, Prod.ext hf ht⟩
    · obtain ⟨before, after, u, hsplit, hu, hsettle⟩ := ih h
      refine ⟨n :: before, after, u, by rw [hsplit, List.cons_append], ?_, hsettle⟩
      exact perform_cons_eq_none_iff.mpr ⟨ho, hu⟩

theorem keys_perform_abort {a : Abort} (h : d.perform body ns s = (some a, t))
    (hns : ReadyOrder d.links s.report.keys ns) :
    ∃ before after, ns = before ++ a.node :: after ∧
      t.report.keys = s.report.keys ++ (before ++ [a.node]) := by
  obtain ⟨before, after, u, rfl, hu, hsettle⟩ := perform_abort_split h
  obtain ⟨hbefore, hrest⟩ := ReadyOrder.append_iff.mp hns
  have hk : u.report.keys = s.report.keys ++ before := keys_perform hu hbefore
  refine ⟨before, after, rfl, ?_⟩
  rw [← List.append_assoc, ← hk, ← keys_settle d body (hk ▸ hrest.1.1), hsettle]

end Perform
end Draft

def Visit.ofOutcome (n : Node) : Outcome → Visit
  | .abort f => .stop ⟨n, f⟩
  | _ => .resolve

namespace Plan
variable {p : Plan} {n : Node} {s : Progress}

theorem reach_of_mem (body : Node → Body) (h : n ∈ s.report.keys) :
    p.reach body n s = (.pass, s) := by
  unfold reach
  rw [if_pos (OrderedMap.contains_iff.mpr h)]

theorem reach_of_not_ready (body : Node → Body) (h : n ∉ s.report.keys)
    (hr : ¬ Ready p.links s.report.keys n) :
    p.reach body n s =
      (.pass, s.tell (.reached n (p.joinOf n) .wait (p.tally s.report n))) := by
  unfold reach
  rw [if_neg (fun hc => h (OrderedMap.contains_iff.mp hc)), verdict_eq, if_neg hr]
  rfl

theorem reach_of_due (body : Node → Body) (h : Due p.links s.report.keys n) :
    ∃ t, p.reach body n s = (.ofOutcome n (p.settle body n s.stage).1, t) ∧
      t.stage = (p.settle body n s.stage).2 ∧
      t.log = s.log ++ [.reached n (p.joinOf n) (if p.Admits s.report n then .run else .skip)
        (p.tally s.report n)] := by
  have hstage : s.stage.report = s.report := rfl
  unfold reach Draft.settle Draft.resolve
  rw [if_neg (fun hc => h.1 (OrderedMap.contains_iff.mp hc)), verdict_eq, if_pos h.2, hstage]
  by_cases ha : p.Admits s.report n
  · rw [if_pos ha, if_pos ha]
    refine ⟨((s.tell (.reached n (p.joinOf n) .run (p.tally s.report n))).execute n (body n)).2, ?_,
      rfl, rfl⟩
    dsimp only [Progress.enact, Progress.execute, Progress.tell, Progress.stage]
    cases (body n s.context).1 <;> rfl
  · rw [if_neg ha, if_neg ha]
    exact ⟨_, rfl, rfl, rfl⟩

theorem reach_of_not_due (body : Node → Body) (h : ¬ Due p.links s.report.keys n) :
    ∃ t, p.reach body n s = (.pass, t) ∧ t.stage = s.stage := by
  by_cases hn : n ∈ s.report.keys
  · exact ⟨s, reach_of_mem body hn, rfl⟩
  · exact ⟨_, reach_of_not_ready body hn (fun hr => h ⟨hn, hr⟩), rfl⟩

/-- Only a body that is run has a say in what reaching its node comes to. -/
theorem reach_congr {body body' : Node → Body}
    (h : n ∉ s.report.keys → p.verdict s.report n = .run → body' n = body n) :
    p.reach body' n s = p.reach body n s := by
  unfold reach
  split
  · rfl
  · rename_i hn
    unfold Progress.enact
    dsimp only
    split
    · rfl
    · rfl
    · rename_i hv
      rw [h (mt OrderedMap.contains_iff.mpr hn) hv]

/-- What reaching a node keeps, the traversal of an agenda keeps. -/
theorem traverse_induction {body : Node → Body} {P : Progress → Prop}
    (hreach : ∀ n v s t, p.reach body n s = (v, t) → P s → P t) (agenda : List Node) (h : P s) :
    P (p.traverse body agenda s).2 := by
  fun_induction traverse p body agenda s with
  | case1 s => exact h
  | case2 n agenda s t ht ih => exact ih (hreach n _ s t ht h)
  | case3 n agenda s t ht ih => exact ih (hreach n _ s t ht h)
  | case4 n agenda s a t ht => exact hreach n _ s t ht h

/-- A traversal performs the nodes that it walks through. -/
theorem traverse_eq_perform (p : Plan) (body : Node → Body) (agenda : List Node) (s : Progress) :
    (p.traverse body agenda s).map id Progress.stage =
      p.perform body (walk p.links agenda s.report.keys) s.stage := by
  generalize hd : s.report.keys = done
  fun_induction walk p.links agenda done generalizing s with
  | case1 done =>
    rw [traverse_nil]
    rfl
  | case2 n agenda done h ih =>
    subst hd
    obtain ⟨t, ht, hs, _⟩ := reach_of_due body h
    rw [traverse_cons, ht]
    cases ho : (p.settle body n s.stage).1.isAbort with
    | true =>
      obtain ⟨f, hf⟩ := Outcome.isAbort_iff.mp ho
      rw [Draft.perform_cons_abort hf, hf, ← hs]
      rfl
    | false =>
      have hreport : t.report = (p.settle body n s.stage).2.report := congrArg Stage.report hs
      have hkeys : t.report.keys = s.report.keys ++ [n] := by
        rw [hreport]
        exact Draft.keys_settle p.toDraft body (s := s.stage) h.1
      rw [Draft.perform_cons ho, ← hs, ← ih t hkeys, ← successors_eq]
      cases hv : (p.settle body n s.stage).1 with
      | proceed b => rfl
      | skip => rfl
      | abort f => rw [hv] at ho; cases ho
  | case3 n agenda done h ih =>
    subst hd
    obtain ⟨t, ht, hs⟩ := reach_of_not_due body h
    have hreport : t.report = s.report := congrArg Stage.report hs
    rw [traverse_cons, ht, ← hs]
    exact ih t (congrArg OrderedMap.keys hreport)

theorem keys_traverse {body : Node → Body} {agenda : List Node} {t : Progress}
    (h : p.traverse body agenda s = (none, t)) :
    t.report.keys = s.report.keys ++ walk p.links agenda s.report.keys := by
  have hperform := p.traverse_eq_perform body agenda s
  rw [h] at hperform
  exact Draft.keys_perform (t := t.stage) hperform.symm (walk_readyOrder _ _ _)

end Plan

def Stage.ofContext (c : Context) : Stage := ⟨c, ∅⟩

namespace Abort

def result : Option Abort → Except RunError Unit
  | none => .ok ()
  | some a => .error (.aborted a.node a.failure)

/-- The event that closes the log of a run. -/
def closing (visited : Nat) : Option Abort → Event
  | none => .completed visited
  | some a => .aborted a.node a.failure visited

end Abort

namespace Run
variable (p : Plan) (body : Node → Body) (c : Context)

/-- The first call traverses the plan; how the traversal ends is how the run ends. -/
theorem compute_eq : ∃ a s,
    p.traverse body p.initial ((ofPlan p c).progress.tell (.started p.initial.length)) = (a, s) ∧
      compute body (ofPlan p c) =
        (Abort.result a, ⟨p, s.tell (Abort.closing s.report.size a), true, a.isNone⟩) := by
  refine ⟨_, _, rfl, ?_⟩
  have hnew : (ofPlan p c).computed ≠ true := by simp [ofPlan]
  unfold compute
  rw [if_neg hnew]
  dsimp only
  split <;> simp_all [Abort.result, Abort.closing, ofPlan]

theorem plan_compute : (compute body (ofPlan p c)).2.plan = p := by
  obtain ⟨a, s, _, hc⟩ := compute_eq p body c
  rw [hc]

theorem computed_compute : (compute body (ofPlan p c)).2.computed = true := by
  obtain ⟨a, s, _, hc⟩ := compute_eq p body c
  rw [hc]

theorem completed_compute :
    (compute body (ofPlan p c)).2.completed = true ↔ (compute body (ofPlan p c)).1 = .ok () := by
  obtain ⟨a, s, _, hc⟩ := compute_eq p body c
  rw [hc]
  cases a <;> simp [Abort.result]

theorem compute_ok_or_aborted : (compute body (ofPlan p c)).1 = .ok () ∨
    ∃ n f, (compute body (ofPlan p c)).1 = .error (.aborted n f) := by
  obtain ⟨a, s, _, hc⟩ := compute_eq p body c
  rw [hc]
  cases a with
  | none => exact .inl rfl
  | some a => exact .inr ⟨a.node, a.failure, rfl⟩

/-- A run performs the visit order of its plan; how the performance ends is how the run ends. -/
theorem compute_performs : ∃ (a : Option Abort) (s : Progress),
    p.perform body (visitOrder p.nodes p.links) (.ofContext c) = (a, s.stage) ∧
      compute body (ofPlan p c) =
        (Abort.result a, ⟨p, s.tell (Abort.closing s.report.size a), true, a.isNone⟩) := by
  obtain ⟨a, s, ht, hc⟩ := compute_eq p body c
  have h := p.traverse_eq_perform body p.initial
    ((ofPlan p c).progress.tell (.started p.initial.length))
  rw [ht] at h
  exact ⟨a, s, (p.visitOrder_eq ▸ h).symm, hc⟩

theorem compute_ofPlan : ∃ a t,
    p.perform body (visitOrder p.nodes p.links) (.ofContext c) = (a, t) ∧
      (compute body (ofPlan p c)).1 = Abort.result a ∧
      (compute body (ofPlan p c)).2.progress.stage = t := by
  obtain ⟨a, s, hperform, hc⟩ := compute_performs p body c
  exact ⟨a, s.stage, hperform, by rw [hc], by rw [hc]; rfl⟩

end Run
end Workflow
