import Workflow.Proofs.Activation
import Workflow.Proofs.LivePaths
import Workflow.Proofs.Reordering

/-!
# Repeated links

A link that is declared a second time changes how often its target is reached and how its incoming
links are counted. The second time around the target is not due: it stood on the agenda before, and
what is due on an agenda has been dealt with by the end of it. A join that asks for all links or for
any of them takes the longer count when it takes the shorter one, so that such a run stays as it is.
A join that asks for one link counts a repeated link twice, and so refuses a node that a single
other node continues into.
-/

namespace Workflow

set_option autoImplicit false

section Walk
variable {links : List Link} {l : Link} {n : Node} {as bs done : List Node}

/-- A node is not due any more where it stands on the agenda for the second time. -/
theorem walk_append_cons_of_mem (h : n ∈ as) :
    walk links (as ++ n :: bs) done = walk links (as ++ bs) done := by
  have hpast : ¬ Due links (done ++ walk links as done) n := by
    apply not_due_of_walk _ n (List.mem_singleton.mpr rfl)
    intro k hk _
    rwa [List.mem_singleton.mp hk]
  rw [walk_append, walk_append, walk, if_neg hpast]

theorem mem_concat_iff (hl : l ∈ links) {k : Link} : k ∈ links ++ [l] ↔ k ∈ links := by
  rw [List.mem_append, List.mem_singleton]
  exact or_iff_left_of_imp fun he => he ▸ hl

theorem due_concat_iff (hl : l ∈ links) : Due (links ++ [l]) done n ↔ Due links done n := by
  unfold Due Ready
  simp only [mem_concat_iff hl]

/-- The targets of the links that leave a node on a branch. -/
def heirsOn (links : List Link) (n : Node) (b : Branch) : List Node :=
  (links.filter fun l => l.source = n ∧ l.branch = b).map Link.target

theorem heirs_eq_flatMap (links : List Link) (n : Node) :
    heirs links n = n.outgoing.flatMap (heirsOn links n) := rfl

theorem target_mem_heirsOn (hl : l ∈ links) : l.target ∈ heirsOn links l.source l.branch :=
  List.mem_map_of_mem (List.mem_filter.mpr ⟨hl, decide_eq_true ⟨rfl, rfl⟩⟩)

theorem heirsOn_concat_self (links : List Link) (l : Link) :
    heirsOn (links ++ [l]) l.source l.branch = heirsOn links l.source l.branch ++ [l.target] := by
  simp [heirsOn, List.filter_append]

theorem heirsOn_concat_of_ne {b : Branch} (h : ¬ (l.source = n ∧ l.branch = b)) :
    heirsOn (links ++ [l]) n b = heirsOn links n b := by
  unfold heirsOn
  rw [List.filter_append, List.filter_cons_of_neg (by simpa using h), List.filter_nil,
    List.append_nil]

/-- The target of a repeated link is one heir more, behind its first occurrence. -/
theorem heirs_concat (hl : l ∈ links) (n : Node) :
    heirs (links ++ [l]) n = heirs links n ∨
      ∃ as bs, l.target ∈ as ∧ heirs links n = as ++ bs ∧
        heirs (links ++ [l]) n = as ++ l.target :: bs := by
  by_cases hs : l.source = n
  · subst hs
    -- only the heirs on the branch of the link change, and they get the target at their end
    obtain ⟨before, after, hsplit⟩ := List.append_of_mem l.branch_mem_outgoing
    have hnodup : (before ++ l.branch :: after).Nodup := hsplit ▸ Branch.outgoing_nodup _
    obtain ⟨_, hafter, hbefore⟩ := List.nodup_append.mp hnodup
    have hrest : ∀ bs : List Branch, l.branch ∉ bs →
        bs.flatMap (heirsOn (links ++ [l]) l.source) = bs.flatMap (heirsOn links l.source) := by
      intro bs hbs
      apply List.flatMap_congr
      intro b hb
      exact heirsOn_concat_of_ne fun h => hbs (h.2 ▸ hb)
    have hnew : l.branch ∉ before := fun h => hbefore _ h _ List.mem_cons_self rfl
    right
    refine ⟨before.flatMap (heirsOn links l.source) ++ heirsOn links l.source l.branch,
      after.flatMap (heirsOn links l.source), ?_, ?_, ?_⟩
    · exact List.mem_append_right _ (target_mem_heirsOn hl)
    · rw [heirs_eq_flatMap, hsplit, List.flatMap_append, List.flatMap_cons, List.append_assoc]
    · rw [heirs_eq_flatMap, hsplit, List.flatMap_append, List.flatMap_cons, heirsOn_concat_self,
        hrest before hnew, hrest after (List.nodup_cons.mp hafter).1]
      simp only [List.append_assoc, List.singleton_append]
  · left
    rw [heirs_eq_flatMap, heirs_eq_flatMap]
    apply List.flatMap_congr
    intro b _
    exact heirsOn_concat_of_ne fun h => hs h.1

/-- The order of the visits is the same. -/
theorem walk_concat (hl : l ∈ links) (agenda done : List Node) :
    walk (links ++ [l]) agenda done = walk links agenda done := by
  fun_induction walk links agenda done with
  | case1 done => rw [walk]
  | case2 n agenda done hn ih =>
    rw [walk, if_pos ((due_concat_iff hl).mpr hn), ← ih]
    rcases heirs_concat hl n with heq | ⟨as, bs, hmem, hheirs, heq⟩
    · rw [heq]
    · rw [heq, hheirs, List.append_assoc, List.cons_append, walk_append_cons_of_mem hmem,
        List.append_assoc]
  | case3 n agenda done hn ih => rw [walk, if_neg (mt (due_concat_iff hl).mp hn), ih]

theorem visitOrder_concat (nodes : List Node) (hl : l ∈ links) :
    visitOrder nodes (links ++ [l]) = visitOrder nodes links := by
  have hinitial : ∀ n, incoming (links ++ [l]) n = [] ↔ incoming links n = [] := by
    intro n
    unfold incoming
    simp only [List.filter_eq_nil_iff, mem_concat_iff hl]
  unfold visitOrder
  simp only [hinitial]
  exact walk_concat hl _ _

end Walk

namespace Join
variable {j : Join} {won total : Nat}

/-- One link more, which wins as another one does. -/
theorem takes_succ_iff (hj : j = .all ∨ j = .any) (h : 0 < won) :
    j.Takes (won + 1) (total + 1) ↔ j.Takes won total := by
  rcases hj with rfl | rfl
  · exact Nat.add_right_cancel_iff
  · exact iff_of_true (Nat.succ_pos won) h

/-- One link more, which fails to win as another one does. -/
theorem takes_total_succ_iff (hj : j = .all ∨ j = .any) (h : won < total) :
    j.Takes won (total + 1) ↔ j.Takes won total := by
  rcases hj with rfl | rfl
  · unfold Takes
    omega
  · exact Iff.rfl

end Join

namespace Draft
variable {d : Draft} {l : Link} {n : Node}

theorem Sound.addLink (h : d.Sound) (hl : l ∈ d.links) : (d.addLink l).Sound where
  distinct := h.distinct
  declared := fun k hk => h.declared k ((mem_concat_iff hl).mp hk)
  answered := by
    intro n hn hd
    obtain ⟨k, hk, hs⟩ := h.answered n hn hd
    exact ⟨k, (mem_concat_iff hl).mpr hk, hs⟩
  ordered := by
    obtain ⟨order, hperm, hforward⟩ := h.ordered
    exact ⟨order, hperm, fun k hk => hforward k ((mem_concat_iff hl).mp hk)⟩

theorem incoming_concat_self (links : List Link) (l : Link) :
    incoming (links ++ [l]) l.target = incoming links l.target ++ [l] := by
  simp [incoming, List.filter_append]

theorem wins_concat_self (links : List Link) (l : Link) (r : Report) :
    wins (links ++ [l]) r l.target = wins links r l.target + if Wins r l then 1 else 0 := by
  unfold wins
  rw [incoming_concat_self, List.countP_append, List.countP_singleton]
  simp only [decide_eq_true_eq]

/-- A join for all links or for any of them does not see the repetition. -/
theorem admits_addLink_iff (hl : l ∈ d.links)
    (hj : d.joinOf l.target = .all ∨ d.joinOf l.target = .any) (r : Report) (n : Node) :
    (d.addLink l).Admits r n ↔ d.Admits r n := by
  by_cases ht : l.target = n
  · subst ht
    have hin : l ∈ incoming d.links l.target := mem_incoming.mpr ⟨hl, rfl⟩
    have htakes : (d.joinOf l.target).Takes (wins (d.links ++ [l]) r l.target)
          ((incoming d.links l.target).length + 1) ↔
        (d.joinOf l.target).Takes (wins d.links r l.target)
          (incoming d.links l.target).length := by
      rw [wins_concat_self]
      by_cases hw : Wins r l
      · rw [if_pos hw]
        apply Join.takes_succ_iff hj
        exact List.countP_pos_iff.mpr ⟨l, hin, decide_eq_true hw⟩
      · rw [if_neg hw, Nat.add_zero]
        apply Join.takes_total_succ_iff hj
        exact List.countP_lt_length_iff.mpr ⟨l, hin, by simpa using hw⟩
    have hnil : incoming d.links l.target ≠ [] := List.ne_nil_of_mem hin
    have hnil' : incoming d.links l.target ++ [l] ≠ [] := by simp
    have hlinks : (d.addLink l).links = d.links ++ [l] := rfl
    have hjoin : (d.addLink l).joinOf l.target = d.joinOf l.target := rfl
    unfold Admits
    rw [hjoin, hlinks, incoming_concat_self, List.length_append, List.length_singleton, htakes,
      or_iff_right hnil, or_iff_right hnil']
  · have hin : incoming (d.addLink l).links n = incoming d.links n := by
      simp [Draft.addLink, incoming, List.filter_append, ht]
    exact admits_congr (.of_eq hin) rfl fun _ _ _ => rfl

theorem perform_addLink (hl : l ∈ d.links)
    (hj : d.joinOf l.target = .all ∨ d.joinOf l.target = .any) (body : Node → Body)
    (ns : List Node) (s : Stage) :
    (d.addLink l).perform body ns s = d.perform body ns s := by
  apply perform_congr_of_resolve
  intro n _ r
  unfold resolve
  simp only [admits_addLink_iff hl hj]

end Draft

/-- To declare a link again, into a node whose join takes all links or any of them, leaves a plan
valid and its runs as they are. -/
theorem Run.compute_repeated_link {p : Plan} {l : Link} (hl : l ∈ p.links)
    (hj : p.joinOf l.target = .all ∨ p.joinOf l.target = .any) :
    (p.addLink l).defects = [] ∧
      ∀ q : Plan, q.toDraft = p.addLink l → ∀ (body : Node → Body) (c : Context),
        (compute body (ofPlan q c)).1 = (compute body (ofPlan p c)).1 ∧
        (compute body (ofPlan q c)).2.report = (compute body (ofPlan p c)).2.report ∧
        (compute body (ofPlan q c)).2.context = (compute body (ofPlan p c)).2.context := by
  refine ⟨Draft.defects_eq_nil_iff.mpr (p.sound.addLink hl), ?_⟩
  intro q hq body c
  obtain ⟨a, t, hperform, hresult, hstage⟩ := compute_ofPlan p body c
  obtain ⟨b, u, hperform', hresult', hstage'⟩ := compute_ofPlan q body c
  have horder : visitOrder q.nodes q.links = visitOrder p.nodes p.links := by
    rw [hq]
    exact visitOrder_concat p.nodes hl
  rw [horder, hq, Draft.perform_addLink hl hj, hperform] at hperform'
  cases hperform'
  have heq := hstage'.trans hstage.symm
  exact ⟨hresult'.trans hresult.symm, congrArg Stage.report heq, congrArg Stage.context heq⟩

namespace Sample

/-- One of the two links into `check`, whose join takes all. -/
def repeated : Link := links[2]

end Sample

open Sample in
theorem compute_repeated_link_sample :
    (repeated ∈ plan.links ∧
      (plan.joinOf repeated.target = .all ∨ plan.joinOf repeated.target = .any)) ∧
    (plan.addLink repeated).defects = [] ∧
      ∀ q : Plan, q.toDraft = plan.addLink repeated → ∀ (body : Node → Body) (c : Context),
        (Run.compute body (.ofPlan q c)).1 = (Run.compute body (.ofPlan plan c)).1 ∧
        (Run.compute body (.ofPlan q c)).2.report =
          (Run.compute body (.ofPlan plan c)).2.report ∧
        (Run.compute body (.ofPlan q c)).2.context =
          (Run.compute body (.ofPlan plan c)).2.context := by
  have hl : repeated ∈ plan.links := by decide
  have hj : plan.joinOf repeated.target = .all ∨ plan.joinOf repeated.target = .any :=
    .inl (by decide)
  exact ⟨⟨hl, hj⟩, Run.compute_repeated_link hl hj⟩

section Copies
variable {links : List Link} {r : Report} {k l : Link}

theorem Link.eq_of_wins (hs : k.source = l.source) (ht : k.target = l.target) (hk : Wins r k)
    (hl : Wins r l) : k = l := by
  have hb : k.branch = l.branch := by
    unfold Wins at hk hl
    rw [hs, hl] at hk
    exact (Outcome.proceed.inj (Option.some.inj hk)).symm
  cases k
  cases l
  cases hs
  cases ht
  cases hb
  rfl

/-- Where one source alone goes on into a node, the links that win are the copies of one link. -/
theorem wins_eq_count (hl : Wins r l)
    (hsource : ∀ k ∈ links, k.target = l.target → Wins r k → k.source = l.source) :
    wins links r l.target = links.count l := by
  unfold wins incoming
  rw [List.countP_filter, List.count_eq_countP]
  apply List.countP_congr
  intro k hk
  rw [Bool.and_eq_true, decide_eq_true_eq, decide_eq_true_eq, beq_iff_eq]
  constructor
  · rintro ⟨hw, ht⟩
    exact Link.eq_of_wins (hsource k hk ht hw) ht hw hl
  · rintro rfl
    exact ⟨hl, rfl⟩

/-- A single link that wins has no copy. -/
theorem exists_of_wins_eq_one {n : Node} (h : wins links r n = 1) :
    ∃ l ∈ links, l.target = n ∧ Wins r l ∧ links.count l = 1 ∧
      ∀ k ∈ links, k.target = n → Wins r k → k = l := by
  obtain ⟨l, hl⟩ := List.length_eq_one_iff.mp (List.countP_eq_length_filter.symm.trans h)
  have hmem : ∀ k, k = l ↔ (k ∈ links ∧ k.target = n) ∧ Wins r k := by
    intro k
    rw [← mem_incoming, ← List.mem_singleton, ← hl, List.mem_filter, decide_eq_true_eq]
  obtain ⟨⟨hlinks, ht⟩, hw⟩ := (hmem l).mp rfl
  have honly : ∀ k ∈ links, k.target = n → Wins r k → k = l := by
    intro k hk ht hw
    exact (hmem k).mpr ⟨⟨hk, ht⟩, hw⟩
  refine ⟨l, hlinks, ht, hw, ?_, honly⟩
  subst ht
  rw [← wins_eq_count hw fun k hk ht hw => congrArg Link.source (honly k hk ht hw), h]

end Copies

namespace Run

/-- The first node went on, on the branch of a link from it into the second. -/
def ContinuesInto (r : Run) (m n : Node) : Prop :=
  ∃ l ∈ r.plan.links, l.source = m ∧ l.target = n ∧ Wins r.report l

variable (p : Plan) (body : Node → Body) (c : Context)

/-- A completed run executes a node whose join takes one link exactly when one node goes on into it
and does so over a link that is declared once. -/
theorem executed_one_iff (hok : (compute body (ofPlan p c)).1 = .ok ()) {n : Node}
    (hin : incoming p.links n ≠ []) (hjoin : p.joinOf n = .one) :
    (compute body (ofPlan p c)).2.Executed n ↔
      (∃! m, (compute body (ofPlan p c)).2.ContinuesInto m n) ∧
        ∀ l ∈ p.links, l.target = n → Wins (compute body (ofPlan p c)).2.report l →
          p.links.count l = 1 := by
  have hn : n ∈ p.nodes := by
    obtain ⟨l, hl, rfl⟩ := exists_link_of_incoming hin
    exact p.target_mem hl
  have hone : (compute body (ofPlan p c)).2.Executed n ↔
      wins p.links (compute body (ofPlan p c)).2.report n = 1 := by
    rw [executed_iff_of_ok p body c hok hn]
    unfold Draft.Admits
    rw [or_iff_right hin, hjoin]
    exact Iff.rfl
  rw [hone]
  unfold ContinuesInto
  rw [plan_compute]
  constructor
  · intro h
    obtain ⟨l, hl, ht, hw, hcount, honly⟩ := exists_of_wins_eq_one h
    refine ⟨⟨l.source, ⟨l, hl, rfl, ht, hw⟩, ?_⟩, ?_⟩
    · rintro m ⟨k, hk, rfl, hkt, hkw⟩
      rw [honly k hk hkt hkw]
    · intro k hk hkt hkw
      rw [honly k hk hkt hkw, hcount]
  · rintro ⟨⟨m, ⟨l, hl, rfl, rfl, hw⟩, honly⟩, hcount⟩
    rw [wins_eq_count hw fun k hk ht hw => honly k.source ⟨k, hk, rfl, ht, hw⟩]
    exact hcount l hl rfl hw

end Run

namespace Sample

def leftShip : Link := ⟨left, ship, none, by decide, by decide⟩

/-- Two sources of one node; one of them is a decision, which can also answer for another node. -/
def joined : Plan :=
  Draft.compile ⟨[left, check, ship, drop], [leftShip, links[4], links[5]], ∅⟩ (by decide +kernel)

/-- All decisions answer no. -/
def denies (n : Node) : Body := if n.decides then .decision fun _ => .ok false else .idle

end Sample

open Sample in
theorem executed_one_iff_sample :
    ((Run.compute denies (.ofPlan joined ∅)).1 = .ok () ∧
      incoming joined.links ship ≠ [] ∧ joined.joinOf ship = .one) ∧
    ((Run.compute denies (.ofPlan joined ∅)).2.Executed ship ↔
      (∃! m, (Run.compute denies (.ofPlan joined ∅)).2.ContinuesInto m ship) ∧
        ∀ l ∈ joined.links, l.target = ship →
          Wins (Run.compute denies (.ofPlan joined ∅)).2.report l →
          joined.links.count l = 1) ∧
    (Run.compute denies (.ofPlan joined ∅)).2.Executed ship := by
  have hok : (Run.compute denies (.ofPlan joined ∅)).1 = .ok () := by decide +kernel
  have hin : incoming joined.links ship ≠ [] := by decide
  have hjoin : joined.joinOf ship = .one := by decide
  refine ⟨⟨hok, hin, hjoin⟩, Run.executed_one_iff joined denies ∅ hok hin hjoin, ?_⟩
  rw [Run.executed_iff]
  decide +kernel

namespace Sample

def fetchLeft : Link := links[0]

/-- A plan of one link. -/
def once : Plan := Draft.compile ⟨[fetch, left], [fetchLeft], ∅⟩ (by decide +kernel)

/-- The same link, declared twice. -/
def twice : Plan := Draft.compile (once.addLink fetchLeft) (by decide +kernel)

end Sample

open Sample in
/-- In the completed run of `twice` one node goes on into `left`, which is not executed; declaring
the link a second time has made the difference. -/
theorem not_executed_of_repeated_link :
    (Run.compute (fun _ => .idle) (.ofPlan twice ∅)).1 = .ok () ∧
    incoming twice.links left ≠ [] ∧ twice.joinOf left = .one ∧
    (∃! m, (Run.compute (fun _ => .idle) (.ofPlan twice ∅)).2.ContinuesInto m left) ∧
    ¬ (Run.compute (fun _ => .idle) (.ofPlan twice ∅)).2.Executed left ∧
    (Run.compute (fun _ => .idle) (.ofPlan once ∅)).2.Executed left := by
  refine ⟨by decide +kernel, by decide, by decide, ⟨fetch, ?_, ?_⟩, ?_, ?_⟩
  · exact ⟨fetchLeft, by decide +kernel, rfl, rfl, by decide +kernel⟩
  · rintro m ⟨l, hl, rfl, _, _⟩
    rw [Run.plan_compute] at hl
    exact (by decide : ∀ l ∈ twice.links, l.source = fetch) l hl
  · rw [Run.executed_iff]
    decide +kernel
  · rw [Run.executed_iff]
    decide +kernel

end Workflow
