import Workflow.Event
import Workflow.Plan
import Workflow.Report

/-!
The traversal of a plan. Nodes are reached one after another from an agenda. A node that was
recorded before or has to wait is passed over; any other node is run or skipped and recorded, and
its successors go to the front of the agenda. The first node that aborts ends the traversal.

Every step either takes a node off the agenda or uses up the links that leave a node, which were
unused before because the node was not recorded; so the traversal ends on every plan.
-/

namespace Workflow

set_option autoImplicit false

/-- What a traversal has done so far. -/
structure Progress where
  context : Context
  report : Report
  log : List Event

namespace Progress

def ofContext (c : Context) : Progress := ⟨c, ∅, []⟩

def tell (s : Progress) (e : Event) : Progress := { s with log := s.log ++ [e] }

def record (s : Progress) (n : Node) (o : Outcome) : Progress :=
  { s with report := Report.record s.report n o }

/-- Run a node on the context and record its outcome. -/
def execute (s : Progress) (n : Node) (body : Body) : Outcome × Progress :=
  let (o, c) := body s.context
  (o, { s with context := c }.record n o)

end Progress

/-- Count the links that enter a node, each given by its source and its branch, against the outcomes
recorded so far. -/
def Report.tally (r : Report) (feeds : List (Node × Branch)) : Tally where
  total := feeds.length
  known := feeds.countP fun f => r.contains f.1
  winning := feeds.countP fun f => (r.get? f.1).any fun o => o.continuesOn f.2

/-- The node that ended a traversal, with its failure. -/
structure Abort where
  node : Node
  failure : Failure
deriving DecidableEq, Repr

/-- What reaching a node comes to: nothing, its being recorded, or the end of the traversal. -/
inductive Visit where
  | pass
  | resolve
  | stop (a : Abort)

namespace Progress
variable {s t : Progress} {n : Node} {j : Join} {v : Verdict} {k : Tally} {body : Body}

/-- Tell of a node what was found, and do with it what the verdict says. -/
def enact (s : Progress) (n : Node) (j : Join) (v : Verdict) (k : Tally) (body : Body) :
    Visit × Progress :=
  let s := s.tell (.reached n j v k)
  match v with
  | .wait => (.pass, s)
  | .skip => (.resolve, s.record n .skip)
  | .run =>
    match s.execute n body with
    | (.abort f, s) => (.stop ⟨n, f⟩, s)
    | (_, s) => (.resolve, s)

theorem report_of_enact_pass (h : s.enact n j v k body = (.pass, t)) :
    t.report = s.report := by
  cases v with
  | wait =>
    cases h
    rfl
  | skip => cases h
  | run =>
    unfold enact at h
    dsimp only at h
    split at h <;> cases h

theorem report_of_enact_resolve (h : s.enact n j v k body = (.resolve, t)) :
    ∃ o, t.report = s.report.insert n o := by
  cases v with
  | wait => cases h
  | skip =>
    cases h
    exact ⟨_, rfl⟩
  | run =>
    unfold enact execute at h
    dsimp only at h
    split at h
    · cases h
    · rename_i he
      cases h
      cases he
      exact ⟨_, rfl⟩

end Progress

namespace Plan

def tally (p : Plan) (r : Report) (n : Node) : Tally := r.tally (p.feeds n)

def verdict (p : Plan) (r : Report) (n : Node) : Verdict := (p.tally r n).verdict (p.joinOf n)

def reach (p : Plan) (body : Node → Body) (n : Node) (s : Progress) : Visit × Progress :=
  if s.report.contains n then (.pass, s)
  else s.enact n (p.joinOf n) (p.verdict s.report n) (p.tally s.report n) (body n)

theorem report_of_reach_pass {p : Plan} {body : Node → Body} {n : Node} {s t : Progress}
    (h : p.reach body n s = (.pass, t)) : t.report = s.report := by
  unfold reach at h
  split at h
  · cases h
    rfl
  · exact Progress.report_of_enact_pass h

theorem report_of_reach_resolve {p : Plan} {body : Node → Body} {n : Node} {s t : Progress}
    (h : p.reach body n s = (.resolve, t)) :
    n ∉ s.report.keys ∧ ∃ o, t.report = s.report.insert n o := by
  unfold reach at h
  split at h
  · cases h
  · rename_i hn
    exact ⟨mt OrderedMap.contains_iff.mpr hn, Progress.report_of_enact_resolve h⟩

/-- Reach the nodes of an agenda and all that follows from them. -/
def traverse (p : Plan) (body : Node → Body) : List Node → Progress → Option Abort × Progress
  | [], s => (none, s)
  | n :: agenda, s =>
    match _h : p.reach body n s with
    | (.pass, t) => traverse p body agenda t
    | (.resolve, t) => traverse p body (p.successors n ++ agenda) t
    | (.stop a, t) => (some a, t)
termination_by agenda s => agenda.length + (pending p.links s.report.keys).length
decreasing_by
  · rw [report_of_reach_pass _h, List.length_cons]
    omega
  · obtain ⟨hn, o, ho⟩ := report_of_reach_resolve _h
    have := length_pending_concat p.links hn
    rw [ho, OrderedMap.keys_insert, if_neg hn, successors_eq, List.length_cons, List.length_append]
    omega

@[simp] theorem traverse_nil (p : Plan) (body : Node → Body) (s : Progress) :
    p.traverse body [] s = (none, s) := by
  rw [traverse]

theorem traverse_cons (p : Plan) (body : Node → Body) (n : Node) (agenda : List Node)
    (s : Progress) :
    p.traverse body (n :: agenda) s =
      match p.reach body n s with
      | (.pass, t) => p.traverse body agenda t
      | (.resolve, t) => p.traverse body (p.successors n ++ agenda) t
      | (.stop a, t) => (some a, t) := by
  rw [traverse]
  split <;> simp_all

/-- The rest of an agenda is reached when its first part ends without an abort. -/
theorem traverse_append (p : Plan) (body : Node → Body) (as bs : List Node) (s : Progress) :
    p.traverse body (as ++ bs) s =
      match p.traverse body as s with
      | (none, t) => p.traverse body bs t
      | (some a, t) => (some a, t) := by
  fun_induction traverse p body as s with
  | case1 s => rfl
  | case2 n agenda s t h ih =>
    simp only [List.cons_append, traverse_cons, h]
    exact ih
  | case3 n agenda s t h ih =>
    simp only [List.cons_append, traverse_cons, h, ← List.append_assoc]
    exact ih
  | case4 n agenda s a t h => simp only [List.cons_append, traverse_cons, h]

end Plan
end Workflow
