import Workflow.Proofs.Renaming
import Workflow.Run

/-!
# Runs of renamed graphs

A run of a renamed graph does what the run of the graph does, when every body does under its new id
what it did under its old one: the context changes alike, and the report and the log are renamed.
-/

namespace Workflow

set_option autoImplicit false

variable (f : Nat ↪ Nat)

def Report.rename (r : Report) : Report :=
  r.relabel (Node.rename f) (Node.rename_injective f) id

theorem Report.contains_rename (r : Report) (n : Node) :
    (r.rename f).contains (n.rename f) = OrderedMap.contains r n :=
  OrderedMap.contains_relabel (Node.rename_injective f) id r n

theorem Report.get?_rename (r : Report) (n : Node) :
    (r.rename f).get? (n.rename f) = OrderedMap.get? r n :=
  (OrderedMap.get?_relabel (Node.rename_injective f) id r n).trans Option.map_id_apply

theorem Report.size_rename (r : Report) : (r.rename f).size = OrderedMap.size r :=
  OrderedMap.size_relabel (Node.rename_injective f) id r

def Event.rename : Event → Event
  | reached node join verdict tally => reached (node.rename f) join verdict tally
  | aborted node failure visited => aborted (node.rename f) failure visited
  | e => e

def Abort.rename (a : Abort) : Abort := ⟨a.node.rename f, a.failure⟩

def Visit.rename : Visit → Visit
  | pass => pass
  | resolve => resolve
  | stop a => stop (a.rename f)

namespace Progress

/-- The context stays as it is. -/
def rename (s : Progress) : Progress :=
  ⟨s.context, s.report.rename f, s.log.map (Event.rename f)⟩

theorem report_rename (s : Progress) : (s.rename f).report = s.report.rename f := rfl

theorem tell_rename (s : Progress) (e : Event) :
    (s.tell e).rename f = (s.rename f).tell (e.rename f) := by
  simp only [tell, rename, List.map_append, List.map_cons, List.map_nil]

theorem record_rename (s : Progress) (n : Node) (o : Outcome) :
    (s.record n o).rename f = (s.rename f).record (n.rename f) o := by
  simp only [record, rename, Report.record, Report.rename, OrderedMap.relabel_insert, id]

theorem execute_rename (s : Progress) (n : Node) (body : Body) :
    (s.rename f).execute (n.rename f) body =
      ((s.execute n body).1, (s.execute n body).2.rename f) := by
  simp only [execute, record_rename]
  rfl

/-- The event names the node, what was found is the same. -/
theorem enact_rename (s : Progress) (n : Node) (j : Join) (v : Verdict) (k : Tally) (body : Body) :
    (s.rename f).enact (n.rename f) j v k body =
      ((s.enact n j v k body).1.rename f, (s.enact n j v k body).2.rename f) := by
  have htold : (s.rename f).tell (.reached (n.rename f) j v k) =
      (s.tell (.reached n j v k)).rename f := (tell_rename f s (.reached n j v k)).symm
  unfold enact
  rw [htold]
  cases v with
  | wait => rfl
  | skip =>
    dsimp only
    rw [← record_rename]
    rfl
  | run =>
    dsimp only
    rw [execute_rename]
    generalize execute _ n body = done
    obtain ⟨o, t⟩ := done
    cases o <;> rfl

end Progress

namespace Plan
variable (p : Plan)

theorem tally_rename (r : Report) (n : Node) :
    (p.rename f).tally (r.rename f) (n.rename f) = p.tally r n := by
  unfold tally Report.tally
  rw [feeds_rename, List.length_map, List.countP_map, List.countP_map]
  simp only [Function.comp_def, Prod.map_fst, Prod.map_snd, Report.contains_rename,
    Report.get?_rename, id]

theorem verdict_rename (r : Report) (n : Node) :
    (p.rename f).verdict (r.rename f) (n.rename f) = p.verdict r n := by
  unfold verdict
  rw [tally_rename, joinOf_rename]

theorem reach_rename (body : Node → Body) (n : Node) (s : Progress) :
    (p.rename f).reach body (n.rename f) (s.rename f) =
      ((p.reach (body ∘ Node.rename f) n s).1.rename f,
        (p.reach (body ∘ Node.rename f) n s).2.rename f) := by
  unfold reach
  rw [Progress.report_rename, Report.contains_rename]
  by_cases hn : s.report.contains n = true
  · rw [if_pos hn, if_pos hn]
    rfl
  · rw [if_neg hn, if_neg hn, joinOf_rename, verdict_rename, tally_rename, Progress.enact_rename]
    rfl

/-- Node by node the traversal of the renamed plan is where that of the plan is. -/
theorem traverse_rename (body : Node → Body) (agenda : List Node) (s : Progress) :
    (p.rename f).traverse body (agenda.map (Node.rename f)) (s.rename f) =
      ((p.traverse (body ∘ Node.rename f) agenda s).1.map (Abort.rename f),
        (p.traverse (body ∘ Node.rename f) agenda s).2.rename f) := by
  fun_induction traverse p (body ∘ Node.rename f) agenda s with
  | case1 s => rw [List.map_nil, traverse_nil]; rfl
  | case2 n agenda s t h ih =>
    rw [List.map_cons, traverse_cons, reach_rename, h]
    exact ih
  | case3 n agenda s t h ih =>
    rw [List.map_append, ← successors_rename] at ih
    rw [List.map_cons, traverse_cons, reach_rename, h]
    exact ih
  | case4 n agenda s a t h =>
    rw [List.map_cons, traverse_cons, reach_rename, h]
    rfl

end Plan

def RunError.rename : RunError → RunError
  | notActivated => notActivated
  | alreadyComputed => alreadyComputed
  | aborted node failure => aborted (node.rename f) failure
  | graph why => graph (why.rename f)

namespace Run

def rename (r : Run) : Run where
  plan := r.plan.rename f
  progress := r.progress.rename f
  computed := r.computed
  completed := r.completed

theorem start_rename (g : Graph) (c : Context) :
    start (g.rename f) c = ((start g c).map (rename f)).mapError (RunError.rename f) := by
  cases g <;> rfl

theorem outcomeOf_rename (r : Run) (n : Node) :
    (r.rename f).outcomeOf (n.rename f) = r.outcomeOf n :=
  r.report.get?_rename f n

theorem compute_rename (body : Node → Body) (r : Run) :
    compute body (r.rename f) =
      ((compute (body ∘ Node.rename f) r).1.mapError (RunError.rename f),
        (compute (body ∘ Node.rename f) r).2.rename f) := by
  unfold compute
  by_cases hr : r.computed = true
  · rw [if_pos hr, if_pos (show (r.rename f).computed = true from hr)]
    rfl
  · rw [if_neg hr, if_neg (show ¬ (r.rename f).computed = true from hr)]
    have hstarted : (r.rename f).progress.tell (.started (r.rename f).plan.initial.length) =
        (r.progress.tell (.started r.plan.initial.length)).rename f := by
      rw [Progress.tell_rename]
      exact congrArg (fun k => (r.progress.rename f).tell (.started k)) (List.length_map _)
    have htraverse : (r.rename f).plan.traverse body (r.rename f).plan.initial _ = _ :=
      r.plan.traverse_rename f body r.plan.initial
        (r.progress.tell (.started r.plan.initial.length))
    simp only [hstarted, htraverse]
    generalize r.plan.traverse (body ∘ Node.rename f) _ _ = ended
    obtain ⟨_ | a, t⟩ := ended
    · simp only [rename, Option.map_none, Progress.tell_rename, Progress.report_rename,
        Report.size_rename]
      rfl
    · simp only [rename, Option.map_some, Progress.tell_rename, Progress.report_rename,
        Report.size_rename]
      rfl

end Run

namespace Graph

theorem checkLog_rename (g : Graph) : (g.rename f).checkLog = g.checkLog.map (Event.rename f) := by
  unfold checkLog
  rw [check_rename]
  cases g.check with
  | nil => rfl
  | cons d ds => exact congrArg (fun k => [Event.checkFailed k]) (List.length_map _)

theorem activateLog_rename (g : Graph) :
    (g.rename f).activateLog = g.activateLog.map (Event.rename f) := by
  cases g with
  | active p => rfl
  | building d =>
    have hactivate := activate_rename f (building d)
    have hcheck := checkLog_rename f (building d)
    simp only [rename] at hactivate hcheck
    simp only [activateLog, rename, hactivate]
    cases (building d).activate with
    | error e => exact hcheck
    | ok g' =>
      cases g' with
      | building e => exact hcheck
      | active p =>
        simp [Except.map, Except.mapError, rename, Plan.rename, Draft.rename, Adjacency.rename,
          Event.rename]

end Graph

/-- Whatever is asked of a graph or of a run has the renamed answer after a renaming. A body goes
by the new ids: what it does under the old id of a node it does under the new one. -/
structure Equivariant (f : Nat ↪ Nat) : Prop where
  make : ∀ source target b,
    Link.make (source.map (Node.rename f)) (target.map (Node.rename f)) b =
      ((Link.make source target b).map (Link.rename f)).mapError (LinkError.rename f)
  check : ∀ g : Graph, (g.rename f).check = g.check.map (Defect.rename f)
  call : ∀ (g : Graph) c,
    (g.rename f).call (c.rename f) = ((g.call c).1.rename f, (g.call c).2.rename f)
  after : ∀ (g : Graph) cs, (g.rename f).after (cs.map (Call.rename f)) = (g.after cs).rename f
  initial : ∀ g : Graph, (g.rename f).initial = g.initial.map (Node.rename f)
  follow : ∀ (g : Graph) n b, (g.rename f).follow (n.rename f) b =
    ((g.follow n b).map (List.map (Node.rename f))).mapError (GraphError.rename f)
  feeding : ∀ (g : Graph) n b, (g.rename f).feeding (n.rename f) b =
    ((g.feeding n b).map (List.map (Node.rename f))).mapError (GraphError.rename f)
  joinOf : ∀ (g : Graph) n, (g.rename f).joinOf (n.rename f) = g.joinOf n
  checkLog : ∀ g : Graph, (g.rename f).checkLog = g.checkLog.map (Event.rename f)
  activateLog : ∀ g : Graph, (g.rename f).activateLog = g.activateLog.map (Event.rename f)
  start : ∀ g c,
    Run.start (g.rename f) c = ((Run.start g c).map (Run.rename f)).mapError (RunError.rename f)
  outcomeOf : ∀ (r : Run) n, (r.rename f).outcomeOf (n.rename f) = r.outcomeOf n
  compute : ∀ body (r : Run),
    Run.compute body (r.rename f) =
      ((Run.compute (body ∘ Node.rename f) r).1.mapError (RunError.rename f),
        (Run.compute (body ∘ Node.rename f) r).2.rename f)

theorem ids_only_identify (f : Nat ↪ Nat) : Equivariant f where
  make := Link.make_rename f
  check := Graph.check_rename f
  call := Graph.call_rename f
  after := Graph.after_rename f
  initial := Graph.initial_rename f
  follow := Graph.follow_rename f
  feeding := Graph.feeding_rename f
  joinOf := Graph.joinOf_rename f
  checkLog := Graph.checkLog_rename f
  activateLog := Graph.activateLog_rename f
  start := Run.start_rename f
  outcomeOf := Run.outcomeOf_rename f
  compute := Run.compute_rename f

end Workflow
