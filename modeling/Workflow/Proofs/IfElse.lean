import Workflow.Proofs.Endings
import Workflow.Proofs.LivePaths

/-!
# If and else

A node that one link alone enters does as that link says, whatever its join. So a row of actions
hands on what it is given: all of them are executed where the link into the first one fires, and all
are skipped where it does not. Two such rows that leave a decision on its two answers and meet in a
node bring it two links: exactly one fires, or neither when the decision was skipped.
-/

namespace Workflow

set_option autoImplicit false

/-- The source went on, on the branch of the link; of a link that enters a node, a plan keeps just
these two. -/
def Fires (r : Report) (f : Node × Branch) : Prop := r.get? f.1 = some (.proceed f.2)

instance (r : Report) (f : Node × Branch) : Decidable (Fires r f) :=
  inferInstanceAs (Decidable (_ = _))

theorem Fires.branch_eq {r : Report} {n : Node} {b b' : Branch} (h : Fires r (n, b))
    (h' : Fires r (n, b')) : b = b' :=
  Outcome.proceed.inj (Option.some.inj (h.symm.trans h'))

namespace Plan
variable {p : Plan} {r : Report} {n : Node} {e f : Node × Branch}

theorem source_mem_of_mem_feeds (h : f ∈ p.feeds n) : f.1 ∈ p.nodes := by
  obtain ⟨l, hl, _, rfl⟩ := exists_link_of_mem_feeds h
  exact p.source_mem hl

theorem mem_of_mem_feeds (h : f ∈ p.feeds n) : n ∈ p.nodes := by
  obtain ⟨l, hl, rfl, _⟩ := exists_link_of_mem_feeds h
  exact p.target_mem hl

theorem admits_iff_feeds (h : f ∈ p.feeds n) :
    p.Admits r n ↔
      (p.joinOf n).Takes ((p.feeds n).countP fun f => Fires r f) (p.feeds n).length := by
  obtain ⟨l, hl, ht, _⟩ := exists_link_of_mem_feeds h
  have hin : incoming p.links n ≠ [] := List.ne_nil_of_mem (mem_incoming.mpr ⟨hl, ht⟩)
  have hperm := p.feeds_perm n
  unfold Draft.Admits wins
  rw [or_iff_right hin, hperm.length_eq, hperm.countP_eq, List.length_map, List.countP_map]
  exact Iff.rfl

/-- All joins are alike on a single link. -/
theorem admits_iff_of_feeds_eq (h : p.feeds n = [f]) : p.Admits r n ↔ Fires r f := by
  have hf : f ∈ p.feeds n := h ▸ List.mem_singleton.mpr rfl
  rw [admits_iff_feeds hf, h, List.countP_singleton]
  unfold Join.Takes
  by_cases hr : Fires r f
  · cases p.joinOf n <;> simp [hr]
  · cases p.joinOf n <;> simp [hr]

section Two
variable (h : (p.feeds n).Perm [e, f])
include h

theorem admits_iff_of_feeds_perm :
    p.Admits r n ↔
      (p.joinOf n).Takes ((if Fires r e then 1 else 0) + (if Fires r f then 1 else 0)) 2 := by
  have he : e ∈ p.feeds n := h.mem_iff.mpr List.mem_cons_self
  rw [admits_iff_feeds he, h.countP_eq, h.length_eq, List.countP_cons, List.countP_singleton,
    Nat.add_comm]
  simp only [decide_eq_true_eq]
  exact Iff.rfl

theorem admits_iff_of_fires (he : Fires r e) (hf : ¬ Fires r f) :
    p.Admits r n ↔ p.joinOf n ≠ .all := by
  rw [admits_iff_of_feeds_perm h, if_pos he, if_neg hf]
  cases p.joinOf n <;> simp [Join.Takes]

theorem not_admits_of_not_fires (he : ¬ Fires r e) (hf : ¬ Fires r f) : ¬ p.Admits r n := by
  rw [admits_iff_of_feeds_perm h, if_neg he, if_neg hf]
  cases p.joinOf n <;> simp [Join.Takes]

end Two
end Plan

def IsAction (body : Node → Body) (n : Node) : Prop :=
  n.decides = false ∧ ∃ work, body n = .action work

def IsDecision (body : Node → Body) (n : Node) : Prop :=
  n.decides = true ∧ ∃ answer, body n = .decision answer

theorem IsAction.proceeds {body : Node → Body} {n : Node} (h : IsAction body n) {c : Context}
    (hc : (body n c).1.isAbort = false) : (body n c).1 = .proceed none := by
  obtain ⟨_, work, hwork⟩ := h
  rw [hwork] at hc ⊢
  unfold Body.action at hc ⊢
  split at hc
  · rfl
  · cases hc

theorem IsDecision.answers {body : Node → Body} {n : Node} (h : IsDecision body n) {c : Context}
    (hc : (body n c).1.isAbort = false) : ∃ b, (body n c).1 = .proceed (some b) := by
  obtain ⟨_, answer, hanswer⟩ := h
  rw [hanswer] at hc ⊢
  unfold Body.decision at hc ⊢
  split at hc
  · exact ⟨_, rfl⟩
  · cases hc

/-- Actions in a row, each entered by one link alone: the first one by the link that is given, every
other one by the link from the action before it. The last index is the link that leaves the row. -/
inductive Arm (p : Plan) (body : Node → Body) :
    Node × Branch → List Node → Node × Branch → Prop where
  | nil (f : Node × Branch) : Arm p body f [] f
  | cons {e f : Node × Branch} {n : Node} {ns : List Node} (action : IsAction body n)
      (fed : p.feeds n = [f]) (rest : Arm p body (n, none) ns e) : Arm p body f (n :: ns) e

/-- A decision, the arms that leave it on its answers, and the node in which they meet. -/
structure IfElse (p : Plan) (body : Node → Body) (d : Node) (arm : Bool → List Node)
    (last : Bool → Node × Branch) (m : Node) : Prop where
  decision : IsDecision body d
  arms : ∀ b, Arm p body (d, some b) (arm b) (last b)
  merge : (p.feeds m).Perm [last true, last false]

theorem Arm.source_mem {p : Plan} {body : Node → Body} {e f : Node × Branch} {ns : List Node}
    {m : Node} (h : Arm p body f ns e) (he : e ∈ p.feeds m) : f.1 ∈ p.nodes := by
  cases h with
  | nil => exact Plan.source_mem_of_mem_feeds he
  | cons _ fed _ => exact Plan.source_mem_of_mem_feeds (fed ▸ List.mem_singleton.mpr rfl)

namespace IfElse
variable {p : Plan} {body : Node → Body} {d m : Node} {arm : Bool → List Node}
  {last : Bool → Node × Branch}

theorem merge_of (h : IfElse p body d arm last m) (b : Bool) :
    (p.feeds m).Perm [last b, last !b] := by
  cases b with
  | true => exact h.merge
  | false => exact h.merge.trans (.swap _ _ _)

theorem last_mem_feeds (h : IfElse p body d arm last m) (b : Bool) : last b ∈ p.feeds m :=
  (h.merge_of b).mem_iff.mpr List.mem_cons_self

theorem decision_mem (h : IfElse p body d arm last m) : d ∈ p.nodes :=
  (h.arms true).source_mem (h.last_mem_feeds true)

end IfElse

namespace Run

/-- The node was recorded as skipped without being executed. -/
def Skipped (r : Run) (n : Node) : Prop := ¬ r.Executed n ∧ r.report.get? n = some .skip

theorem Skipped.not_fires {r : Run} {n : Node} (h : r.Skipped n) (b : Branch) :
    ¬ Fires r.report (n, b) := by
  intro hf
  have heq : some Outcome.skip = some (.proceed b) := h.2.symm.trans hf
  cases heq

section Completed
variable (p : Plan) (body : Node → Body) (c : Context)
  (hok : (compute body (ofPlan p c)).1 = .ok ())
include hok

theorem skipped_of_ok {n : Node} (hn : n ∈ p.nodes)
    (h : ¬ p.Admits (compute body (ofPlan p c)).2.report n) :
    (compute body (ofPlan p c)).2.Skipped n :=
  ⟨mt (executed_iff_of_ok p body c hok hn).mp h,
    (compute_faithful p body c).skipped n (report_of_ok p body c hok hn) h⟩

theorem recorded_of_ok {n : Node} (h : (compute body (ofPlan p c)).2.Executed n) :
    ∃ e, (compute body (ofPlan p c)).2.report.get? n = some (body n e).1 ∧
      (body n e).1.isAbort = false := by
  obtain ⟨e, he, hget⟩ := (compute_ends p body c).recorded n h
  exact ⟨e, hget, (compute_ends p body c).ok_iff.mp hok n e he⟩

theorem fires_of_action {n : Node} (hn : IsAction body n)
    (h : (compute body (ofPlan p c)).2.Executed n) :
    Fires (compute body (ofPlan p c)).2.report (n, none) := by
  obtain ⟨e, hget, hcalm⟩ := recorded_of_ok p body c hok h
  rw [hn.proceeds hcalm] at hget
  exact hget

theorem fires_of_decision {n : Node} (hn : IsDecision body n)
    (h : (compute body (ofPlan p c)).2.Executed n) :
    ∃ b, Fires (compute body (ofPlan p c)).2.report (n, some b) := by
  obtain ⟨e, hget, hcalm⟩ := recorded_of_ok p body c hok h
  obtain ⟨b, hb⟩ := hn.answers hcalm
  rw [hb] at hget
  exact ⟨b, hget⟩

variable {p body}

/-- An arm whose first link fires is executed to its end, and the link that leaves it fires. -/
theorem arm_of_fires {e f : Node × Branch} {ns : List Node} (h : Arm p body f ns e)
    (hf : Fires (compute body (ofPlan p c)).2.report f) :
    (∀ n ∈ ns, (compute body (ofPlan p c)).2.Executed n ∧
      (compute body (ofPlan p c)).2.report.get? n = some (.proceed none)) ∧
    Fires (compute body (ofPlan p c)).2.report e := by
  induction h with
  | nil f =>
    refine ⟨?_, hf⟩
    intro n hn
    cases hn
  | @cons e f n ns action fed rest ih =>
    have hn : n ∈ p.nodes := Plan.mem_of_mem_feeds (fed ▸ List.mem_singleton.mpr rfl)
    have hran : (compute body (ofPlan p c)).2.Executed n :=
      (executed_iff_of_ok p body c hok hn).mpr ((Plan.admits_iff_of_feeds_eq fed).mpr hf)
    have hnext := fires_of_action p body c hok action hran
    obtain ⟨hns, he⟩ := ih hnext
    exact ⟨List.forall_mem_cons.mpr ⟨⟨hran, hnext⟩, hns⟩, he⟩

/-- An arm whose first link does not fire is skipped to its end, and the link that leaves it does
not fire either. -/
theorem arm_of_not_fires {e f : Node × Branch} {ns : List Node} (h : Arm p body f ns e)
    (hf : ¬ Fires (compute body (ofPlan p c)).2.report f) :
    (∀ n ∈ ns, (compute body (ofPlan p c)).2.Skipped n) ∧
      ¬ Fires (compute body (ofPlan p c)).2.report e := by
  induction h with
  | nil f =>
    refine ⟨?_, hf⟩
    intro n hn
    cases hn
  | @cons e f n ns action fed rest ih =>
    have hn : n ∈ p.nodes := Plan.mem_of_mem_feeds (fed ▸ List.mem_singleton.mpr rfl)
    have hskip : (compute body (ofPlan p c)).2.Skipped n :=
      skipped_of_ok p body c hok hn (mt (Plan.admits_iff_of_feeds_eq fed).mp hf)
    obtain ⟨hns, he⟩ := ih (hskip.not_fires none)
    exact ⟨List.forall_mem_cons.mpr ⟨hskip, hns⟩, he⟩

end Completed

/-- The arm of the answer is executed and goes on, the other one is skipped; the merge is executed
unless its join takes all links. Where the decision was skipped, all else is skipped as well. -/
structure Resolves (r : Run) (d : Node) (arm : Bool → List Node) (m : Node) : Prop where
  decided : r.Skipped d ∨ r.Executed d ∧ ∃ b, r.report.get? d = some (.proceed (some b))
  taken : ∀ b, r.report.get? d = some (.proceed (some b)) → ∀ n ∈ arm b,
    r.Executed n ∧ r.report.get? n = some (.proceed none)
  passed : ∀ b, r.report.get? d = some (.proceed (some b)) → ∀ n ∈ arm !b, r.Skipped n
  merged : ∀ b, r.report.get? d = some (.proceed (some b)) →
    (r.plan.joinOf m = .any ∨ r.plan.joinOf m = .one → r.Executed m) ∧
      (r.plan.joinOf m = .all → r.Skipped m)
  skipped : r.Skipped d → (∀ b, ∀ n ∈ arm b, r.Skipped n) ∧ r.Skipped m

/-- In a completed run an if and else comes together again, whatever surrounds it. -/
theorem if_else_resolves {p : Plan} {body : Node → Body} {d m : Node} {arm : Bool → List Node}
    {last : Bool → Node × Branch} (h : IfElse p body d arm last m) (c : Context)
    (hok : (compute body (ofPlan p c)).1 = .ok ()) :
    (compute body (ofPlan p c)).2.Resolves d arm m := by
  have hplan := plan_compute p body c
  have hm : m ∈ p.nodes := Plan.mem_of_mem_feeds (h.last_mem_feeds true)
  have hother : ∀ b, (compute body (ofPlan p c)).2.report.get? d = some (.proceed (some b)) →
      ¬ Fires (compute body (ofPlan p c)).2.report (d, some !b) := by
    intro b hb hf
    have heq := Option.some.inj (Fires.branch_eq hb hf)
    simp at heq
  refine ⟨?_, ?_, ?_, ?_, ?_⟩
  · by_cases hd : p.Admits (compute body (ofPlan p c)).2.report d
    · have hran := (executed_iff_of_ok p body c hok h.decision_mem).mpr hd
      exact .inr ⟨hran, fires_of_decision p body c hok h.decision hran⟩
    · exact .inl (skipped_of_ok p body c hok h.decision_mem hd)
  · intro b hb
    exact (arm_of_fires c hok (h.arms b) hb).1
  · intro b hb
    exact (arm_of_not_fires c hok (h.arms !b) (hother b hb)).1
  · intro b hb
    have hadmits := Plan.admits_iff_of_fires (h.merge_of b) (arm_of_fires c hok (h.arms b) hb).2
      (arm_of_not_fires c hok (h.arms !b) (hother b hb)).2
    rw [hplan]
    constructor
    · intro hj
      apply (executed_iff_of_ok p body c hok hm).mpr (hadmits.mpr ?_)
      rcases hj with hj | hj <;> simp [hj]
    · intro hj
      exact skipped_of_ok p body c hok hm fun ha => hadmits.mp ha hj
  · intro hd
    have hnone : ∀ b, ¬ Fires (compute body (ofPlan p c)).2.report (d, some b) :=
      fun b => hd.not_fires (some b)
    refine ⟨fun b => (arm_of_not_fires c hok (h.arms b) (hnone b)).1, ?_⟩
    exact skipped_of_ok p body c hok hm (Plan.not_admits_of_not_fires h.merge
      (arm_of_not_fires c hok (h.arms true) (hnone true)).2
      (arm_of_not_fires c hok (h.arms false) (hnone false)).2)

end Run

namespace Sample

def pack : Node := ⟨8, "pack", false⟩
def close : Node := ⟨9, "close", false⟩

/-- For `ship` there is something to pack first; else `check` goes on to `close` at once. -/
def packing : Plan :=
  Draft.compile ⟨[fetch, check, pack, ship, close, drop],
    [⟨fetch, check, none, by decide, by decide⟩, ⟨check, pack, some true, by decide, by decide⟩,
      ⟨pack, ship, none, by decide, by decide⟩, ⟨ship, close, none, by decide, by decide⟩,
      ⟨check, close, some false, by decide, by decide⟩,
      ⟨close, drop, none, by decide, by decide⟩], ∅⟩
    (by decide +kernel)

def packingBody (n : Node) : Body := if n = check then .decision fun _ => .ok true else .idle

def packingArm (b : Bool) : List Node := if b then [pack, ship] else []

def packingEnd (b : Bool) : Node × Branch := if b then (ship, none) else (check, some false)

theorem packing_action {n : Node} (hn : n ≠ check) (hd : n.decides = false) :
    IsAction packingBody n := ⟨hd, fun c => (.ok (), c), if_neg hn⟩

theorem packing_ifElse : IfElse packing packingBody check packingArm packingEnd close where
  decision := ⟨rfl, _, if_pos rfl⟩
  arms := by
    intro b
    cases b with
    | true =>
      apply Arm.cons (packing_action (by decide) rfl) (by decide +kernel)
      apply Arm.cons (packing_action (by decide) rfl) (by decide +kernel)
      exact .nil _
    | false => exact .nil _
  merge := by decide +kernel

end Sample

open Sample in
theorem if_else_resolves_sample :
    (IfElse packing packingBody check packingArm packingEnd close ∧
      (Run.compute packingBody (.ofPlan packing ∅)).1 = .ok ()) ∧
    (Run.compute packingBody (.ofPlan packing ∅)).2.Resolves check packingArm close := by
  have hok : (Run.compute packingBody (.ofPlan packing ∅)).1 = .ok () := by decide +kernel
  exact ⟨⟨packing_ifElse, hok⟩, Run.if_else_resolves packing_ifElse ∅ hok⟩

end Workflow
