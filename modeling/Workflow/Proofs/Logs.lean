import Workflow.Proofs.Perform

/-!
# What a log says

A traversal tells of every node that it reaches how the links into the node stand and what comes of
it. Done again in turn, with a body run where the log says so and nowhere else, the events give the
context and the report; and each of them fits the report at its time. The sources of a node that is
recorded have their last outcomes by then, so its event fits the report at the end as well.
-/

namespace Workflow

set_option autoImplicit false

namespace Event

/-- The node that is recorded, as run or as skipped. -/
def settled? : Event → Option Node
  | reached n _ .run _ => some n
  | reached n _ .skip _ => some n
  | _ => none

def redo (body : Node → Body) (s : Stage) : Event → Stage
  | reached n _ .run _ => ⟨(body n s.context).2, s.report.insert n (body n s.context).1⟩
  | reached n _ .skip _ => ⟨s.context, s.report.insert n .skip⟩
  | _ => s

/-- What the event says of a node is what the plan says of it, by a report that does not have it. -/
def Fits (p : Plan) (r : Report) : Event → Prop
  | reached n j v t => n ∉ r.keys ∧ j = p.joinOf n ∧ v = p.verdict r n ∧ t = p.tally r n
  | _ => True

end Event

/-- The nodes that a log says are recorded. -/
def settled (log : List Event) : List Node := log.filterMap Event.settled?

/-- Do again what a log says was done. -/
def redo (body : Node → Body) (c : Context) (log : List Event) : Stage :=
  log.foldl (Event.redo body) (.ofContext c)

/-- Every event fits the report at its time. -/
def Truthful (p : Plan) (body : Node → Body) (c : Context) (log : List Event) : Prop :=
  ∀ before e after, log = before ++ e :: after → e.Fits p (redo body c before).report

namespace Event
variable {p : Plan} {body : Node → Body} {e : Event} {s : Stage} {m n : Node}

theorem redo_cases (body : Node → Body) (s : Stage) (e : Event) :
    (e.settled? = none ∧ e.redo body s = s) ∨
      ∃ n o, e.settled? = some n ∧ (e.redo body s).report = s.report.insert n o := by
  cases e with
  | reached n j v t =>
    cases v with
    | wait => exact .inl ⟨rfl, rfl⟩
    | run => exact .inr ⟨n, _, rfl, rfl⟩
    | skip => exact .inr ⟨n, _, rfl, rfl⟩
  | _ => exact .inl ⟨rfl, rfl⟩

theorem settled?_eq_some_iff :
    e.settled? = some n ↔ ∃ j v t, e = .reached n j v t ∧ v ≠ .wait := by
  cases e with
  | reached m j v t => cases v <;> simp [settled?]
  | _ => simp [settled?]

theorem Fits.notMem (h : e.Fits p s.report) (hn : e.settled? = some n) : n ∉ s.report.keys := by
  obtain ⟨j, v, t, rfl, _⟩ := settled?_eq_some_iff.mp hn
  exact h.1

theorem Fits.keys_redo (h : e.Fits p s.report) (body : Node → Body) :
    (e.redo body s).report.keys = s.report.keys ++ e.settled?.toList := by
  rcases redo_cases body s e with ⟨hnone, hs⟩ | ⟨n, o, hn, hs⟩
  · simp [hnone, hs]
  · rw [hs, hn, OrderedMap.keys_insert, if_neg (h.notMem hn)]
    rfl

theorem Fits.get?_redo (h : e.Fits p s.report) (body : Node → Body) (hm : m ∈ s.report.keys) :
    (e.redo body s).report.get? m = s.report.get? m := by
  rcases redo_cases body s e with ⟨_, hs⟩ | ⟨n, o, hn, hs⟩
  · rw [hs]
  · have hne : m ≠ n := fun he => h.notMem hn (he ▸ hm)
    rw [hs, OrderedMap.get?_insert, if_neg hne]

end Event

section Log
variable {p : Plan} {body : Node → Body} {c : Context} {log before after : List Event} {e : Event}
  {n : Node}

theorem settled_append (xs ys : List Event) : settled (xs ++ ys) = settled xs ++ settled ys :=
  List.filterMap_append

theorem settled_singleton (e : Event) : settled [e] = e.settled?.toList := by
  unfold settled
  cases h : e.settled? <;> simp [h]

theorem mem_settled_iff : n ∈ settled log ↔ ∃ j v t, .reached n j v t ∈ log ∧ v ≠ .wait := by
  unfold settled
  simp only [List.mem_filterMap, Event.settled?_eq_some_iff]
  constructor
  · rintro ⟨e, he, j, v, t, rfl, hv⟩
    exact ⟨j, v, t, he, hv⟩
  · rintro ⟨j, v, t, he, hv⟩
    exact ⟨_, he, j, v, t, rfl, hv⟩

theorem redo_concat (body : Node → Body) (c : Context) (log : List Event) (e : Event) :
    redo body c (log ++ [e]) = e.redo body (redo body c log) := by
  simp [redo]

namespace Truthful

theorem nil : Truthful p body c [] := by
  intro before e after h
  simp at h

theorem concat_iff :
    Truthful p body c (log ++ [e]) ↔
      Truthful p body c log ∧ e.Fits p (redo body c log).report := by
  constructor
  · intro h
    refine ⟨?_, h log e [] rfl⟩
    intro before x after hsplit
    exact h before x (after ++ [e]) (by simp [hsplit])
  · rintro ⟨h, he⟩ before x after hsplit
    rcases List.eq_nil_or_concat after with rfl | ⟨after, y, rfl⟩
    · obtain ⟨rfl, hx⟩ := List.append_inj' hsplit rfl
      cases hx
      exact he
    · rw [List.concat_eq_append, ← List.cons_append, ← List.append_assoc] at hsplit
      exact h before x after (List.append_inj' hsplit rfl).1

theorem of_append (h : Truthful p body c (before ++ after)) : Truthful p body c before := by
  intro xs x ys hsplit
  exact h xs x (ys ++ after) (by simp [hsplit])

theorem keys_redo (h : Truthful p body c log) : (redo body c log).report.keys = settled log := by
  induction log using List.reverseRecOn with
  | nil => rfl
  | append_singleton log e ih =>
    obtain ⟨hlog, he⟩ := concat_iff.mp h
    rw [redo_concat, he.keys_redo, ih hlog, settled_append, settled_singleton]

/-- What is recorded stays recorded. -/
theorem get?_redo (h : Truthful p body c (before ++ after)) (hn : n ∈ settled before) :
    (redo body c (before ++ after)).report.get? n = (redo body c before).report.get? n := by
  induction after using List.reverseRecOn with
  | nil => rw [List.append_nil]
  | append_singleton after e ih =>
    rw [← List.append_assoc] at h ⊢
    obtain ⟨hlog, he⟩ := concat_iff.mp h
    have hmem : n ∈ (redo body c (before ++ after)).report.keys := by
      rw [hlog.keys_redo, settled_append]
      exact List.mem_append_left _ hn
    rw [redo_concat, he.get?_redo body hmem, ih hlog]

/-- The event that records a node fits the report at the end, but for its having the node. -/
theorem fits_last (h : Truthful p body c log) {j : Join} {v : Verdict} {t : Tally}
    (he : .reached n j v t ∈ log) (hv : v ≠ .wait) :
    j = p.joinOf n ∧ v = p.verdict (redo body c log).report n ∧
      t = p.tally (redo body c log).report n := by
  obtain ⟨before, after, rfl⟩ := List.append_of_mem he
  obtain ⟨_, hj, hverdict, htally⟩ := h before _ after rfl
  have hready := Plan.verdict_ne_wait_iff.mp (hverdict ▸ hv)
  -- the sources were recorded before the node, and later events leave their outcomes alone
  have hlast : p.tally (redo body c before).report n =
      p.tally (redo body c (before ++ .reached n j v t :: after)).report n := by
    apply Plan.tally_congr
    intro l hl ht
    have hsource := hready l hl ht
    rw [h.of_append.keys_redo] at hsource
    exact (h.get?_redo hsource).symm
  refine ⟨hj, hverdict.trans ?_, htally.trans hlast⟩
  rw [Plan.verdict, Plan.verdict, hlast]

theorem get?_of_skip (h : Truthful p body c log) {j : Join} {t : Tally}
    (he : .reached n j .skip t ∈ log) : (redo body c log).report.get? n = some .skip := by
  obtain ⟨before, after, rfl⟩ := List.append_of_mem he
  rw [List.append_cons] at h ⊢
  have hn : n ∈ settled (before ++ [.reached n j .skip t]) :=
    mem_settled_iff.mpr ⟨j, .skip, t, by simp, by simp⟩
  rw [h.get?_redo hn, redo_concat]
  exact OrderedMap.get?_insert_self _ _ _

end Truthful
end Log

/-- The log is truthful and leaves nothing out. -/
structure Progress.Logged (p : Plan) (body : Node → Body) (c : Context) (s : Progress) : Prop where
  truthful : Truthful p body c s.log
  redone : redo body c s.log = s.stage

namespace Plan
variable {p : Plan} {body : Node → Body} {n : Node} {s t : Progress}

/-- What the traversal tells of a node, by the report so far. -/
def finding (p : Plan) (r : Report) (n : Node) : Event :=
  .reached n (p.joinOf n) (p.verdict r n) (p.tally r n)

theorem finding_fits (p : Plan) {r : Report} (hn : n ∉ r.keys) : (p.finding r n).Fits p r :=
  ⟨hn, rfl, rfl, rfl⟩

/-- Reaching a node tells of it what is found and does what it tells, unless it is recorded. -/
theorem reach_cases {v : Visit} (h : p.reach body n s = (v, t)) :
    n ∈ s.report.keys ∧ t = s ∨
      n ∉ s.report.keys ∧ t.log = s.log ++ [p.finding s.report n] ∧
        t.stage = (p.finding s.report n).redo body s.stage := by
  by_cases hn : n ∈ s.report.keys
  · rw [reach_of_mem body hn] at h
    cases h
    exact .inl ⟨hn, rfl⟩
  · refine .inr ⟨hn, ?_⟩
    unfold finding
    by_cases hr : Ready p.links s.report.keys n
    · obtain ⟨u, hu, hstage, hlog⟩ := reach_of_due body ⟨hn, hr⟩
      rw [hu] at h
      cases h
      rw [hlog, hstage, verdict_eq, if_pos hr]
      refine ⟨rfl, ?_⟩
      unfold Draft.settle Draft.resolve
      by_cases ha : p.Admits s.report n
      · have ha' : p.Admits s.stage.report n := ha
        rw [if_pos ha, if_pos ha']
        rfl
      · have ha' : ¬ p.Admits s.stage.report n := ha
        rw [if_neg ha, if_neg ha']
        rfl
    · rw [reach_of_not_ready body hn hr] at h
      cases h
      rw [verdict_eq, if_neg hr]
      exact ⟨rfl, rfl⟩

end Plan

namespace Progress.Logged
variable {p : Plan} {body : Node → Body} {c : Context} {n : Node} {s t : Progress}

theorem keys (h : s.Logged p body c) : s.report.keys = settled s.log := by
  rw [← h.truthful.keys_redo, h.redone]
  rfl

theorem fits_last (h : s.Logged p body c) {j : Join} {v : Verdict} {k : Tally}
    (he : .reached n j v k ∈ s.log) (hv : v ≠ .wait) :
    j = p.joinOf n ∧ v = p.verdict s.report n ∧ k = p.tally s.report n := by
  have hlast := h.truthful.fits_last he hv
  rw [h.redone] at hlast
  exact hlast

theorem finding_mem (h : s.Logged p body c) (hn : n ∈ s.report.keys) :
    p.finding s.report n ∈ s.log ∧ p.verdict s.report n ≠ .wait := by
  rw [h.keys] at hn
  obtain ⟨j, v, k, he, hv⟩ := mem_settled_iff.mp hn
  obtain ⟨rfl, rfl, rfl⟩ := h.fits_last he hv
  exact ⟨he, hv⟩

theorem concat (h : s.Logged p body c) {e : Event} (he : e.Fits p s.report)
    (hlog : t.log = s.log ++ [e]) (hstage : t.stage = e.redo body s.stage) :
    t.Logged p body c := by
  have hfits : e.Fits p (redo body c s.log).report := by
    rw [h.redone]
    exact he
  refine ⟨?_, ?_⟩
  · rw [hlog]
    exact Truthful.concat_iff.mpr ⟨h.truthful, hfits⟩
  · rw [hlog, redo_concat, h.redone, hstage]

theorem reach (h : s.Logged p body c) {v : Visit} (hreach : p.reach body n s = (v, t)) :
    t.Logged p body c := by
  rcases Plan.reach_cases hreach with ⟨_, rfl⟩ | ⟨hn, hlog, hstage⟩
  · exact h
  · exact h.concat (p.finding_fits hn) hlog hstage

theorem traverse (h : s.Logged p body c) (agenda : List Node) :
    (p.traverse body agenda s).2.Logged p body c :=
  Plan.traverse_induction (fun _ _ _ _ hreach h => h.reach hreach) agenda h

theorem ofContext (p : Plan) (body : Node → Body) (c : Context) :
    (ofContext c).Logged p body c := ⟨.nil, rfl⟩

end Progress.Logged

theorem Run.compute_logged (p : Plan) (body : Node → Body) (c : Context) :
    (compute body (ofPlan p c)).2.progress.Logged p body c := by
  obtain ⟨a, s, ht, hc⟩ := compute_eq p body c
  have hfirst : (Event.started p.initial.length).Fits p ∅ := trivial
  have hlast : (Abort.closing s.report.size a).Fits p s.report := by cases a <;> trivial
  have hstart := (Progress.Logged.ofContext p body c).concat
    (t := (ofPlan p c).progress.tell (.started p.initial.length)) hfirst rfl rfl
  have hend := hstart.traverse p.initial
  rw [ht] at hend
  rw [hc]
  refine hend.concat hlast rfl ?_
  cases a <;> rfl

end Workflow
