import Workflow.Proofs.Endings

/-!
# The log of a run

What a run tells an observer agrees with what it leaves behind. The nodes that the log says are run
or skipped are those of the report, in its order, each with the counts that the report gives; a node
that waits is not recorded yet and is told of again before the run completes. Between the start and
the closing event the log tells of nodes only, and a run that is over tells nothing more.
-/

namespace Workflow

set_option autoImplicit false

namespace Progress

/-- The log has gone on with events about nodes. -/
def GoesOn (p : Plan) (s t : Progress) : Prop :=
  ∃ es, t.log = s.log ++ es ∧ ∀ e ∈ es, ∃ r n, e = p.finding r n

theorem Ran.mono {s t : Progress} {n : Node} (h : s.Ran n) {es : List Event}
    (hlog : t.log = s.log ++ es) : t.Ran n := by
  obtain ⟨j, k, he⟩ := h
  refine ⟨j, k, ?_⟩
  rw [hlog]
  exact List.mem_append_left es he

end Progress

namespace Plan
variable {p : Plan} {body body' : Node → Body} {n : Node} {s t u : Progress}

theorem goesOn_reach {v : Visit} (h : p.reach body n t = (v, u)) (hs : s.GoesOn p t) :
    s.GoesOn p u := by
  rcases reach_cases h with ⟨_, rfl⟩ | ⟨_, hlog, _⟩
  · exact hs
  · obtain ⟨es, hes, hall⟩ := hs
    refine ⟨es ++ [p.finding t.report n], by rw [hlog, hes, List.append_assoc], ?_⟩
    intro e he
    rcases List.mem_append.mp he with he | he
    · exact hall e he
    · exact ⟨t.report, n, List.mem_singleton.mp he⟩

theorem goesOn_traverse (p : Plan) (body : Node → Body) (agenda : List Node) (s : Progress) :
    s.GoesOn p (p.traverse body agenda s).2 :=
  traverse_induction (P := s.GoesOn p) (fun _ _ _ _ h => goesOn_reach h) agenda
    ⟨[], by simp, by simp⟩

theorem ran_of_reach {v : Visit} (h : p.reach body n s = (v, t)) (hn : n ∉ s.report.keys)
    (hv : p.verdict s.report n = .run) : t.Ran n := by
  rcases reach_cases h with ⟨hmem, _⟩ | ⟨_, hlog, _⟩
  · exact absurd hmem hn
  · rw [finding, hv] at hlog
    refine ⟨p.joinOf n, p.tally s.report n, ?_⟩
    rw [hlog]
    exact List.mem_append_right _ (List.mem_singleton_self _)

theorem reach_congr_of_ran {v : Visit} (h : p.reach body n s = (v, t))
    (hran : ∀ m, t.Ran m → body' m = body m) : p.reach body' n s = (v, t) := by
  rw [← h]
  exact reach_congr fun hn hv => hran n (ran_of_reach h hn hv)

/-- A traversal would be the same with other bodies for the nodes that it does not say it ran. -/
theorem traverse_congr {agenda : List Node}
    (h : ∀ m, (p.traverse body agenda s).2.Ran m → body' m = body m) :
    p.traverse body' agenda s = p.traverse body agenda s := by
  fun_induction traverse p body agenda s with
  | case1 s => exact traverse_nil p body' s
  | case2 n agenda s t ht ih =>
    -- what the step says it ran, the whole traversal says it ran
    obtain ⟨es, hes, _⟩ := p.goesOn_traverse body agenda t
    rw [traverse_cons, reach_congr_of_ran ht fun m hm => h m (hm.mono hes)]
    exact ih h
  | case3 n agenda s t ht ih =>
    obtain ⟨es, hes, _⟩ := p.goesOn_traverse body (p.successors n ++ agenda) t
    rw [traverse_cons, reach_congr_of_ran ht fun m hm => h m (hm.mono hes)]
    exact ih h
  | case4 n agenda s a t ht => rw [traverse_cons, reach_congr_of_ran ht h]

end Plan

namespace Run

/-- The log of a run agrees with how the run ended and what it recorded. -/
structure LogAgrees (p : Plan) (body : Node → Body) (c : Context)
    (x : Except RunError Unit × Run) : Prop where
  settled_eq : settled x.2.log = x.2.report.keys
  /-- The bodies that the log says were run, run again in its order, give what the run has left. -/
  redone : redo body c x.2.log = ⟨x.2.context, x.2.report⟩
  /-- The other bodies were never asked. -/
  unread : ∀ body', (∀ n, x.2.Executed n → body' n = body n) → compute body' (ofPlan p c) = x
  truthful : Truthful p body c x.2.log
  recorded : ∀ n j v t, .reached n j v t ∈ x.2.log → v ≠ .wait →
    j = p.joinOf n ∧ v = p.verdict x.2.report n ∧ t.total = (incoming p.links n).length ∧
      t.known = t.total ∧ t.winning = wins p.links x.2.report n
  waiting : ∀ before n j t after, x.2.log = before ++ .reached n j .wait t :: after →
    n ∉ settled before ∧ t.known < t.total ∧ (x.1 = .ok () → n ∈ settled after)
  framed : ∃ es last, x.2.log = .started p.initial.length :: (es ++ [last]) ∧
    ∀ e ∈ es, ∃ n j v t, e = .reached n j v t
  completed_iff : x.2.log.getLast? = some (.completed p.nodes.length) ↔ x.1 = .ok ()
  aborted : x.1 ≠ .ok () → ∃ n f, x.1 = .error (.aborted n f) ∧
    x.2.log.getLast? = some (.aborted n f x.2.report.size) ∧
      x.2.report.entries.getLast? = some (n, .abort f)
  refused : ∀ body', compute body' x.2 = (.error .alreadyComputed, x.2)

variable (p : Plan) (body : Node → Body) (c : Context)

theorem log_compute : ∃ a es, (compute body (ofPlan p c)).1 = Abort.result a ∧
    (compute body (ofPlan p c)).2.log = .started p.initial.length ::
      (es ++ [Abort.closing (compute body (ofPlan p c)).2.report.size a]) ∧
    ∀ e ∈ es, ∃ r n, e = p.finding r n := by
  obtain ⟨a, s, ht, hc⟩ := compute_eq p body c
  obtain ⟨es, hes, hall⟩ := p.goesOn_traverse body p.initial
    ((ofPlan p c).progress.tell (.started p.initial.length))
  rw [ht] at hes
  have hlog : s.log = .started p.initial.length :: es := hes
  refine ⟨a, es, by rw [hc], ?_, hall⟩
  rw [hc, ← List.cons_append, ← hlog]
  rfl

/-- The run would be the same with other bodies for the nodes that it does not say it ran. -/
theorem compute_congr {body' : Node → Body}
    (h : ∀ n, (compute body (ofPlan p c)).2.Executed n → body' n = body n) :
    compute body' (ofPlan p c) = compute body (ofPlan p c) := by
  obtain ⟨a, s, ht, hc⟩ := compute_eq p body c
  obtain ⟨a', s', ht', hc'⟩ := compute_eq p body' c
  rw [hc] at h
  have hsame : p.traverse body' p.initial ((ofPlan p c).progress.tell (.started p.initial.length)) =
      p.traverse body p.initial ((ofPlan p c).progress.tell (.started p.initial.length)) := by
    apply Plan.traverse_congr
    rw [ht]
    intro n hn
    exact h n (hn.mono (t := s.tell (Abort.closing s.report.size a)) rfl)
  rw [ht, ht'] at hsame
  cases hsame
  rw [hc, hc']

theorem size_report_of_ok (hok : (compute body (ofPlan p c)).1 = .ok ()) :
    (compute body (ofPlan p c)).2.report.size = p.nodes.length := by
  rw [← OrderedMap.keys_length, (compute_goesAlong p body c).of_ok hok]
  exact p.visitOrder_perm.length_eq

/-- A node that waits has a source that is not recorded, so it is a node of the plan and a run that
completes comes back to it. -/
theorem settled_after_wait {before after : List Event} {n : Node} {j : Join} {t : Tally}
    (h : (compute body (ofPlan p c)).2.log = before ++ .reached n j .wait t :: after) :
    n ∉ settled before ∧ t.known < t.total ∧
      ((compute body (ofPlan p c)).1 = .ok () → n ∈ settled after) := by
  have hlogged := compute_logged p body c
  have hlog : (compute body (ofPlan p c)).2.progress.log = _ := h
  obtain ⟨hn, _, hverdict, rfl⟩ := hlogged.truthful before _ after h
  have hbefore : Truthful p body c before := (hlog ▸ hlogged.truthful).of_append
  rw [hbefore.keys_redo] at hn
  have hwait := Plan.verdict_eq_wait_iff.mp hverdict.symm
  refine ⟨hn, Plan.known_lt_total_iff.mpr hwait, ?_⟩
  intro hok
  -- no link enters a node outside the plan, so such a node would be ready
  have hnode : n ∈ p.nodes := by
    by_contra hout
    exact hwait fun l hl ht => absurd (ht ▸ p.target_mem hl) hout
  have hmem := report_of_ok p body c hok hnode
  rw [report, hlogged.keys, hlog, settled_append] at hmem
  exact (List.mem_append.mp hmem).resolve_left hn

/-- What is told of a node that is recorded is what the report at the end says of it. -/
theorem counts_of_settled {n : Node} {j : Join} {v : Verdict} {t : Tally}
    (h : .reached n j v t ∈ (compute body (ofPlan p c)).2.log) (hv : v ≠ .wait) :
    j = p.joinOf n ∧ v = p.verdict (compute body (ofPlan p c)).2.report n ∧
      t.total = (incoming p.links n).length ∧ t.known = t.total ∧
      t.winning = wins p.links (compute body (ofPlan p c)).2.report n := by
  obtain ⟨hj, hverdict, rfl⟩ := (compute_logged p body c).fits_last h hv
  have hready := Plan.verdict_ne_wait_iff.mp (hverdict ▸ hv)
  refine ⟨hj, hverdict, ?_, Plan.known_eq_total_iff.mpr hready, ?_⟩
  · rw [p.tally_eq]
  · rw [p.tally_eq]
    rfl

/-- The log of every run agrees with its report, with how it ended and with what its bodies did. -/
theorem log_agrees : LogAgrees p body c (compute body (ofPlan p c)) := by
  have hlogged := compute_logged p body c
  obtain ⟨a, es, hresult, hlog, hall⟩ := log_compute p body c
  have hlast : (compute body (ofPlan p c)).2.log.getLast? =
      some (Abort.closing (compute body (ofPlan p c)).2.report.size a) := by
    rw [hlog, ← List.cons_append, List.getLast?_concat]
  refine ⟨hlogged.keys.symm, hlogged.redone, fun _ => compute_congr p body c, hlogged.truthful,
    fun _ _ _ _ => counts_of_settled p body c, fun _ _ _ _ _ => settled_after_wait p body c,
    ?_, ?_, ?_, fun body' => compute_of_computed body' (computed_compute p body c)⟩
  · refine ⟨es, _, hlog, ?_⟩
    intro e he
    obtain ⟨r, n, rfl⟩ := hall e he
    exact ⟨n, _, _, _, rfl⟩
  · rw [hlast, hresult]
    cases a with
    | none => simp [Abort.closing, Abort.result, size_report_of_ok p body c hresult]
    | some a => simp [Abort.closing, Abort.result]
  · intro hno
    cases a with
    | none => exact absurd hresult hno
    | some a => exact ⟨_, _, hresult, hlast, (abortedAt_of_aborted p body c hresult).last⟩

end Run
end Workflow
