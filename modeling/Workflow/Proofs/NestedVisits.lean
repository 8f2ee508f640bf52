import Mathlib.Data.List.Chain
import Mathlib.Data.List.Perm.Subperm
import Workflow.Proofs.Visits

/-!
# Visits within visits

A traversal as a recursion: the visit of a node that is resolved visits its successors before it
returns. The recursion has a budget for its depth, and keeps a record of the visits that it makes and
of the nodes whose successors it has visited. Visits follow links, each link at most once, and those
that are open at a time lie on one path; since links form no cycle, a budget of as many visits as
there are nodes is never exhausted, and the recursion comes to what the traversal of the plan comes
to.
-/

namespace Workflow

set_option autoImplicit false

/-- The beginning of a visit: the nodes of the visits open around it, from the outermost in, and the
node that is visited. -/
structure Arrival where
  around : List Node
  node : Node

namespace Arrival

/-- The nodes of all visits that are open when the visit begins. -/
def trail (v : Arrival) : List Node := v.around ++ [v.node]

/-- The node that was left for this one, if any. -/
def step (v : Arrival) : Option Node × Node := (v.around.getLast?, v.node)

end Arrival

structure Tour where
  progress : Progress
  arrivals : List Arrival
  /-- The nodes whose successors were visited. -/
  spread : List Node

inductive Halt where
  | abort (a : Abort)
  | exhausted

/-- Visit the nodes in turn, up to the first visit that halts. -/
def visitEach (visit : Node → Tour → Option Halt × Tour) : List Node → Tour → Option Halt × Tour
  | [], t => (none, t)
  | n :: ns, t =>
    match visit n t with
    | (none, u) => visitEach visit ns u
    | (some h, u) => (some h, u)

namespace Plan

/-- Visit a node within other visits, with a budget for the depth of the visits from here on. -/
def visit (p : Plan) (body : Node → Body) : Nat → List Node → Node → Tour → Option Halt × Tour
  | 0, _, _, t => (some .exhausted, t)
  | budget + 1, around, n, t =>
    let arrivals := t.arrivals ++ [⟨around, n⟩]
    match p.reach body n t.progress with
    | (.pass, s) => (none, ⟨s, arrivals, t.spread⟩)
    | (.stop a, s) => (some (.abort a), ⟨s, arrivals, t.spread⟩)
    | (.resolve, s) =>
      visitEach (visit p body budget (around ++ [n])) (p.successors n)
        ⟨s, arrivals, t.spread ++ [n]⟩

/-- The nodes of a path along the links, from an initial node on. -/
structure Trail (p : Plan) (ns : List Node) : Prop where
  initial : ∀ n ∈ ns.head?, n ∈ p.initial
  linked : ns.IsChain (Linked p.links)

namespace Trail
variable {p : Plan} {ns : List Node} {m n : Node}

theorem singleton (h : n ∈ p.initial) : p.Trail [n] :=
  ⟨fun _ hm => Option.mem_some.mp hm ▸ h, .singleton n⟩

theorem concat (h : p.Trail (ns ++ [m])) (hn : n ∈ p.successors m) :
    p.Trail (ns ++ [m] ++ [n]) := by
  refine ⟨?_, ?_⟩
  · intro k hk
    apply h.initial
    simpa using hk
  · rw [successors_eq, mem_heirs] at hn
    apply List.isChain_append.mpr
    refine ⟨h.linked, .singleton n, ?_⟩
    simp [hn]

theorem part {ms : List Node} (h : p.Trail ns) (hms : ms <+: ns) : p.Trail ms := by
  obtain ⟨rest, rfl⟩ := hms
  refine ⟨?_, (List.isChain_append.mp h.linked).1⟩
  intro n hn
  apply h.initial
  simp [List.head?_append, Option.mem_def.mp hn]

theorem nodup (h : p.Trail ns) : ns.Nodup := by
  have hchain : ns.IsChain (Relation.TransGen (Linked p.links)) := h.linked.imp fun _ _ => .single
  apply hchain.pairwise.imp
  rintro m _ hm rfl
  exact p.acyclic m hm

theorem mem_nodes (h : p.Trail ns) : ∀ n ∈ ns, n ∈ p.nodes := by
  have hhead : ∀ n ∈ ns.head?, n ∈ p.nodes := fun n hn => (mem_initial.mp (h.initial n hn)).1
  have hlinked := h.linked
  clear h
  induction ns with
  | nil => simp
  | cons m ns ih =>
    obtain ⟨hnext, hrest⟩ := List.isChain_cons.mp hlinked
    intro n hn
    rcases List.mem_cons.mp hn with rfl | hn
    · exact hhead n rfl
    · apply ih _ hrest n hn
      intro k hk
      obtain ⟨l, hl, _, rfl⟩ := hnext k hk
      exact p.target_mem hl

/-- Links form no cycle, so no path is longer than there are nodes. -/
theorem length_le (h : p.Trail ns) : ns.length ≤ p.nodes.length :=
  (h.nodup.subperm fun n hn => h.mem_nodes n hn).length_le

end Trail

theorem keys_of_reach_stop {p : Plan} {body : Node → Body} {n : Node} {s t : Progress} {a : Abort}
    (h : p.reach body n s = (.stop a, t)) :
    a.node = n ∧ t.report.keys = s.report.keys ++ [n] := by
  by_cases hn : Due p.links s.report.keys n
  · obtain ⟨u, hu, hstage, _⟩ := reach_of_due body hn
    rw [hu] at h
    obtain ⟨hv, rfl⟩ := Prod.mk.inj h
    refine ⟨?_, ?_⟩
    · unfold Visit.ofOutcome at hv
      split at hv <;> cases hv
      rfl
    · have hreport : u.report = (p.settle body n s.stage).2.report := congrArg Stage.report hstage
      rw [hreport]
      exact Draft.keys_settle p.toDraft body (s := s.stage) hn.1
  · obtain ⟨u, hu, _⟩ := reach_of_not_due body hn
    rw [hu] at h
    cases h

/-- The steps that visits of some nodes ask for: to each of these nodes from the node left for them,
and from each node that passes on to all its successors. -/
def steps (p : Plan) (caller : Option Node) (ns spread : List Node) : List (Option Node × Node) :=
  ns.map (fun n => (caller, n)) ++ spread.flatMap fun m => (p.successors m).map fun n => (some m, n)

theorem steps_cons_perm (p : Plan) (caller : Option Node) (n : Node) (ns ms ks : List Node) :
    (p.steps caller [n] ms ++ p.steps caller ns ks).Perm
      (p.steps caller (n :: ns) (ms ++ ks)) := by
  simp only [steps, List.map_cons, List.map_nil, List.flatMap_append, List.cons_append,
    List.nil_append]
  exact (List.perm_append_comm_assoc _ _ _).cons _

/-- What visits of some nodes, made within others, come to: an abort or not, and what they add to
the arrivals and to the nodes that passed on. -/
structure Toured (p : Plan) (body : Node → Body) (around ns : List Node) (t u : Tour)
    (a : Option Abort) (arrivals : List Arrival) (spread : List Node) : Prop where
  traverse : p.traverse body ns t.progress = (a, u.progress)
  arrivals_eq : u.arrivals = t.arrivals ++ arrivals
  spread_eq : u.spread = t.spread ++ spread
  keys_eq : u.progress.report.keys =
    t.progress.report.keys ++ spread ++ (a.map Abort.node).toList
  trails : ∀ v ∈ arrivals, p.Trail v.trail
  steps_subperm : (arrivals.map Arrival.step).Subperm (p.steps around.getLast? ns spread)
  steps_perm : a = none → (arrivals.map Arrival.step).Perm (p.steps around.getLast? ns spread)

namespace Toured
variable {p : Plan} {body : Node → Body} {around ns : List Node} {n : Node} {t u w : Tour}
  {a : Option Abort} {as bs : List Arrival} {ms ks : List Node}

theorem nil (p : Plan) (body : Node → Body) (around : List Node) (t : Tour) :
    p.Toured body around [] t t none [] [] where
  traverse := p.traverse_nil body t.progress
  arrivals_eq := by simp
  spread_eq := by simp
  keys_eq := by simp
  trails := by simp
  steps_subperm := List.nil_subperm
  steps_perm := fun _ => .nil

theorem cons (h : p.Toured body around [n] t u none as ms)
    (hrest : p.Toured body around ns u w a bs ks) :
    p.Toured body around (n :: ns) t w a (as ++ bs) (ms ++ ks) where
  traverse := by
    rw [← List.singleton_append, traverse_append, h.traverse]
    exact hrest.traverse
  arrivals_eq := by rw [hrest.arrivals_eq, h.arrivals_eq, List.append_assoc]
  spread_eq := by rw [hrest.spread_eq, h.spread_eq, List.append_assoc]
  keys_eq := by simp [hrest.keys_eq, h.keys_eq]
  trails := by
    intro v hv
    rcases List.mem_append.mp hv with hv | hv
    · exact h.trails v hv
    · exact hrest.trails v hv
  steps_subperm := by
    rw [List.map_append]
    exact ((h.steps_perm rfl).subperm.append hrest.steps_subperm).trans
      (p.steps_cons_perm _ n ns ms ks).subperm
  steps_perm := by
    intro ha
    rw [List.map_append]
    exact ((h.steps_perm rfl).append (hrest.steps_perm ha)).trans (p.steps_cons_perm _ n ns ms ks)

theorem cons_abort {b : Abort} (h : p.Toured body around [n] t u (some b) as ms)
    (ns : List Node) : p.Toured body around (n :: ns) t u (some b) as ms where
  traverse := by
    rw [← List.singleton_append, traverse_append, h.traverse]
  arrivals_eq := h.arrivals_eq
  spread_eq := h.spread_eq
  keys_eq := h.keys_eq
  trails := h.trails
  steps_subperm := by
    have hmore : (p.steps around.getLast? [n] ms).Subperm (p.steps around.getLast? (n :: ns) ms) := by
      have hperm := p.steps_cons_perm around.getLast? n ns ms []
      rw [List.append_nil] at hperm
      exact (List.sublist_append_left _ _).subperm.trans hperm.subperm
    exact h.steps_subperm.trans hmore
  steps_perm := by
    intro ha
    cases ha

/-- Visits made in turn come to what each comes to, if each does so wherever it is made. -/
theorem visitEach {visit : Node → Tour → Option Halt × Tour}
    (h : ∀ n ∈ ns, ∀ t, ∃ u a as ms,
      visit n t = (a.map .abort, u) ∧ p.Toured body around [n] t u a as ms) (t : Tour) :
    ∃ u a as ms, Workflow.visitEach visit ns t = (a.map .abort, u) ∧
      p.Toured body around ns t u a as ms := by
  induction ns generalizing t with
  | nil => exact ⟨t, none, [], [], rfl, .nil p body around t⟩
  | cons n ns ih =>
    obtain ⟨u, a, as, ms, hvisit, hn⟩ := h n List.mem_cons_self t
    cases a with
    | none =>
      obtain ⟨w, b, bs, ks, heach, hns⟩ := ih (fun k hk => h k (List.mem_cons_of_mem n hk)) u
      refine ⟨w, b, as ++ bs, ms ++ ks, ?_, hn.cons hns⟩
      rw [Workflow.visitEach, hvisit]
      exact heach
    | some b =>
      refine ⟨u, some b, as, ms, ?_, hn.cons_abort ns⟩
      rw [Workflow.visitEach, hvisit]
      rfl

/-- A visit that goes no further. -/
theorem leaf {s : Progress} (htrail : p.Trail (around ++ [n]))
    (htraverse : p.traverse body [n] t.progress = (a, s))
    (hkeys : s.report.keys = t.progress.report.keys ++ (a.map Abort.node).toList) :
    p.Toured body around [n] t ⟨s, t.arrivals ++ [⟨around, n⟩], t.spread⟩ a [⟨around, n⟩] [] where
  traverse := htraverse
  arrivals_eq := rfl
  spread_eq := (List.append_nil _).symm
  keys_eq := by rw [List.append_nil, hkeys]
  trails := fun v hv => List.mem_singleton.mp hv ▸ htrail
  steps_subperm := (List.Perm.refl _).subperm
  steps_perm := fun _ => .refl _

/-- A visit that visits the successors of its node. -/
theorem node {s : Progress} (htrail : p.Trail (around ++ [n]))
    (hreach : p.reach body n t.progress = (.resolve, s))
    (h : p.Toured body (around ++ [n]) (p.successors n)
      ⟨s, t.arrivals ++ [⟨around, n⟩], t.spread ++ [n]⟩ u a as ms) :
    p.Toured body around [n] t u a (⟨around, n⟩ :: as) (n :: ms) where
  traverse := by
    rw [traverse_cons, hreach]
    simp only [List.append_nil]
    exact h.traverse
  arrivals_eq := by simp [h.arrivals_eq]
  spread_eq := by simp [h.spread_eq]
  keys_eq := by
    obtain ⟨hn, o, ho⟩ := report_of_reach_resolve hreach
    have hkeys : s.report.keys = t.progress.report.keys ++ [n] := by
      rw [ho, OrderedMap.keys_insert, if_neg hn]
    simp [h.keys_eq, hkeys]
  trails := by
    intro v hv
    rcases List.mem_cons.mp hv with rfl | hv
    · exact htrail
    · exact h.trails v hv
  steps_subperm := by
    have hrest := h.steps_subperm
    rw [List.getLast?_concat] at hrest
    exact (List.subperm_cons _).mpr hrest
  steps_perm := by
    intro ha
    have hrest := h.steps_perm ha
    rw [List.getLast?_concat] at hrest
    exact hrest.cons _

end Toured

/-- A visit comes to what the traversal of its node comes to. The visits around it and its own lie
on a path, so that the budget left for them is not exhausted. -/
theorem visit_toured (p : Plan) (body : Node → Body) (budget : Nat) {around : List Node} {n : Node}
    (htrail : p.Trail (around ++ [n])) (hbudget : p.nodes.length ≤ budget + around.length)
    (t : Tour) :
    ∃ u a as ms, p.visit body budget around n t = (a.map .abort, u) ∧
      p.Toured body around [n] t u a as ms := by
  induction budget generalizing around n t with
  | zero =>
    -- the visits that are open number at least the nodes, and one more would be too long a path
    have hlength := htrail.length_le
    rw [List.length_append, List.length_singleton] at hlength
    omega
  | succ budget ih =>
    rw [visit]
    rcases hr : p.reach body n t.progress with ⟨_ | _ | a, s⟩
    · refine ⟨_, none, _, _, rfl, .leaf htrail ?_ ?_⟩
      · simp only [traverse_cons, hr, traverse_nil]
      · rw [report_of_reach_pass hr]
        simp
    · have heach : ∀ m ∈ p.successors n, ∀ t, ∃ u a as ms,
          p.visit body budget (around ++ [n]) m t = (a.map .abort, u) ∧
            p.Toured body (around ++ [n]) [m] t u a as ms := by
        intro m hm
        apply ih (htrail.concat hm)
        rw [List.length_append, List.length_singleton]
        omega
      obtain ⟨u, a, as, ms, hvisits, h⟩ :=
        Toured.visitEach heach ⟨s, t.arrivals ++ [⟨around, n⟩], t.spread ++ [n]⟩
      exact ⟨u, a, _, _, hvisits, h.node htrail hr⟩
    · obtain ⟨ha, hkeys⟩ := keys_of_reach_stop hr
      refine ⟨_, some a, _, _, rfl, .leaf htrail ?_ ?_⟩
      · rw [traverse_cons, hr]
      · rw [hkeys, ← ha]
        rfl

/-- The nodes that pass on do so over the links that leave them. -/
theorem passed_perm (p : Plan) {ns : List Node} (h : ns.Nodup) :
    (ns.flatMap fun m => (p.successors m).map fun n => (some m, n)).Perm
      ((p.links.filter fun l => l.source ∈ ns).map fun l => (some l.source, l.target)) := by
  have hnode : ∀ m, ((p.successors m).map fun n => (some m, n)).Perm
      ((p.links.filter fun l => l.source = m).map fun l => (some l.source, l.target)) := by
    intro m
    rw [successors_eq, heirs, ← List.map_flatMap, List.map_map]
    refine ((leaving_perm p.links m).map _).trans (.of_eq ?_)
    apply List.map_congr_left
    intro l hl
    obtain rfl : l.source = m := by simpa using (List.mem_filter.mp hl).2
    rfl
  refine (List.Perm.flatMap_left ns fun m _ => hnode m).trans ?_
  rw [← List.map_flatMap]
  exact (flatMap_filter_perm Link.source p.links h).map _

/-- The steps that visits of the initial nodes ask for are steps to these nodes and over links. -/
theorem steps_initial_subperm (p : Plan) {ns : List Node} (h : ns.Nodup) :
    (p.steps none p.initial ns).Subperm
      (p.initial.map (fun n => (none, n)) ++ p.links.map fun l => (some l.source, l.target)) := by
  apply (List.Subperm.refl _).append
  exact (p.passed_perm h).subperm.trans (List.filter_sublist.map _).subperm

theorem steps_initial_perm (p : Plan) {ns : List Node} (h : ns.Nodup)
    (hall : ∀ l ∈ p.links, l.source ∈ ns) :
    (p.steps none p.initial ns).Perm
      (p.initial.map (fun n => (none, n)) ++ p.links.map fun l => (some l.source, l.target)) := by
  have hpassed := p.passed_perm h
  rw [List.filter_eq_self.mpr fun l hl => decide_eq_true (hall l hl)] at hpassed
  exact hpassed.append_left _

end Plan

namespace Run
variable (p : Plan) (body : Node → Body) (c : Context)

def departure : Tour := ⟨(ofPlan p c).progress.tell (.started p.initial.length), [], []⟩

/-- The visits of a run, one initial node after another, with a budget for their depth. -/
def tour (budget : Nat) : Option Halt × Tour :=
  visitEach (p.visit body budget []) p.initial (departure p c)

theorem tour_toured {budget : Nat} (hbudget : p.nodes.length ≤ budget) :
    ∃ u a, tour p body c budget = (a.map .abort, u) ∧
      p.Toured body [] p.initial (departure p c) u a u.arrivals u.spread := by
  have heach : ∀ n ∈ p.initial, ∀ t, ∃ u a as ms,
      p.visit body budget [] n t = (a.map .abort, u) ∧ p.Toured body [] [n] t u a as ms := by
    intro n hn
    exact p.visit_toured body budget (.singleton hn) hbudget
  obtain ⟨u, a, as, ms, hvisits, h⟩ := Plan.Toured.visitEach heach (departure p c)
  obtain rfl : u.arrivals = as := h.arrivals_eq
  obtain rfl : u.spread = ms := h.spread_eq
  exact ⟨u, a, hvisits, h⟩

section Tour
variable {p body c} {u : Tour} {a : Option Abort}
  (h : p.Toured body [] p.initial (departure p c) u a u.arrivals u.spread)
include h

theorem compute_of_toured : compute body (ofPlan p c) = (Abort.result a,
    ⟨p, u.progress.tell (Abort.closing u.progress.report.size a), true, a.isNone⟩) := by
  obtain ⟨b, s, ht, hc⟩ := compute_eq p body c
  obtain ⟨rfl, rfl⟩ : a = b ∧ u.progress = s := Prod.mk.inj (h.traverse.symm.trans ht)
  exact hc

theorem keys_of_toured : (compute body (ofPlan p c)).2.report.keys =
    u.spread ++ (a.map Abort.node).toList := by
  rw [compute_of_toured h]
  exact h.keys_eq

theorem spread_nodup : u.spread.Nodup := by
  have hall := (compute body (ofPlan p c)).2.report.keys_nodup
  rw [keys_of_toured h] at hall
  exact (List.nodup_append.mp hall).1

/-- A run that completes has passed on from every node, so that every link was followed. -/
theorem steps_perm_of_ok (hok : (compute body (ofPlan p c)).1 = .ok ()) :
    (u.arrivals.map Arrival.step).Perm
      (p.initial.map (fun n => (none, n)) ++ p.links.map fun l => (some l.source, l.target)) := by
  cases a with
  | some a =>
    rw [compute_of_toured h] at hok
    cases hok
  | none =>
    apply (h.steps_perm rfl).trans (p.steps_initial_perm (spread_nodup h) _)
    intro l hl
    have hsource := report_of_ok p body c hok (p.source_mem hl)
    rw [keys_of_toured h] at hsource
    simpa using hsource

end Tour

/-- What the visits of a run keep to. -/
structure Bounded (x : Option Halt × Tour) : Prop where
  /-- The visits come to what the run comes to, and never to the end of their budget. -/
  same : ∃ a : Option Abort, x.1 = a.map .abort ∧
    compute body (ofPlan p c) = (Abort.result a,
      ⟨p, x.2.progress.tell (Abort.closing x.2.progress.report.size a), true, a.isNone⟩) ∧
    x.2.progress.report.keys = x.2.spread ++ (a.map Abort.node).toList
  once : x.2.spread.Nodup ∧ ∀ n ∈ x.2.spread, n ∈ p.nodes
  /-- Visits go to the initial nodes and over links, over each link at most once. -/
  steps : (x.2.arrivals.map Arrival.step).Subperm
    (p.initial.map (fun n => (none, n)) ++ p.links.map fun l => (some l.source, l.target))
  length_le : x.2.arrivals.length ≤ p.initial.length + p.links.length
  all_steps : (compute body (ofPlan p c)).1 = .ok () → (x.2.arrivals.map Arrival.step).Perm
    (p.initial.map (fun n => (none, n)) ++ p.links.map fun l => (some l.source, l.target))
  length_eq : (compute body (ofPlan p c)).1 = .ok () →
    x.2.arrivals.length = p.initial.length + p.links.length
  /-- The visits open at a time are the part so far of the visits open at some arrival. -/
  trails : ∀ v ∈ x.2.arrivals, ∀ ns, ns <+: v.trail → p.Trail ns ∧ ns.length ≤ p.nodes.length

/-- Nested visits follow each link at most once and go no deeper than there are nodes; so a budget
of that many visits, or any larger one, lets them come to what the run comes to. -/
theorem visits_bounded (k : Nat) : Bounded p body c (tour p body c (p.nodes.length + k)) := by
  obtain ⟨u, a, htour, h⟩ := tour_toured p body c (Nat.le_add_right p.nodes.length k)
  have hnodup := spread_nodup h
  have hsteps := h.steps_subperm.trans (p.steps_initial_subperm hnodup)
  rw [htour]
  refine ⟨⟨a, rfl, compute_of_toured h, h.keys_eq⟩, ⟨hnodup, ?_⟩, hsteps, ?_, steps_perm_of_ok h,
    ?_, ?_⟩
  · intro n hn
    apply mem_nodes_of_report p body c
    rw [keys_of_toured h]
    exact List.mem_append_left _ hn
  · simpa using hsteps.length_le
  · intro hok
    simpa using (steps_perm_of_ok h hok).length_eq
  · intro v hv ns hns
    have htrail := (h.trails v hv).part hns
    exact ⟨htrail, htrail.length_le⟩

end Run
end Workflow
