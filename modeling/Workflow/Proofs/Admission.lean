import Workflow.Traversal

/-!
# Which nodes run

The rule of the joins, said of the links that enter a node and of the outcomes of their sources. A
traversal counts those links branch by branch and gives a verdict; it waits exactly while a source
is missing, and otherwise runs exactly the nodes that the rule admits.
-/

namespace Workflow

set_option autoImplicit false

def incoming (links : List Link) (n : Node) : List Link := links.filter fun l => l.target = n

/-- The sources of all links into the node are among the given nodes. -/
def Ready (links : List Link) (done : List Node) (n : Node) : Prop :=
  ∀ l ∈ links, l.target = n → l.source ∈ done

instance (links : List Link) (done : List Node) (n : Node) : Decidable (Ready links done n) :=
  inferInstanceAs (Decidable (∀ l ∈ links, l.target = n → l.source ∈ done))

/-- A node whose turn has come: it is not done and it is ready. -/
def Due (links : List Link) (done : List Node) (n : Node) : Prop :=
  n ∉ done ∧ Ready links done n

instance (links : List Link) (done : List Node) (n : Node) : Decidable (Due links done n) :=
  inferInstanceAs (Decidable (_ ∧ _))

/-- The source of the link went on, on the branch of the link. -/
def Wins (r : Report) (l : Link) : Prop := r.get? l.source = some (.proceed l.branch)

instance (r : Report) (l : Link) : Decidable (Wins r l) :=
  inferInstanceAs (Decidable (_ = _))

def wins (links : List Link) (r : Report) (n : Node) : Nat :=
  (incoming links n).countP fun l => Wins r l

def Join.Takes (j : Join) (won total : Nat) : Prop :=
  match j with
  | .all => won = total
  | .any => 0 < won
  | .one => won = 1

instance (j : Join) (won total : Nat) : Decidable (j.Takes won total) :=
  match j with
  | .all => inferInstanceAs (Decidable (won = total))
  | .any => inferInstanceAs (Decidable (0 < won))
  | .one => inferInstanceAs (Decidable (won = 1))

theorem Join.admits_iff {j : Join} {t : Tally} :
    j.admits t = true ↔ j.Takes t.winning t.total := by
  cases j <;> simp [admits, Takes]

/-- A node runs when nothing leads to it, or when its join takes the links that win. -/
def Draft.Admits (d : Draft) (r : Report) (n : Node) : Prop :=
  incoming d.links n = [] ∨
    (d.joinOf n).Takes (wins d.links r n) (incoming d.links n).length

instance (d : Draft) (r : Report) (n : Node) : Decidable (d.Admits r n) :=
  inferInstanceAs (Decidable (_ ∨ _))

/-- A node that is not admitted does nothing. -/
def Body.skipped : Body := fun c => (.skip, c)

/-- What becomes of a node, given the outcomes of its sources. -/
def Draft.resolve (d : Draft) (body : Node → Body) (r : Report) (n : Node) : Body :=
  if d.Admits r n then body n else .skipped

section Rule
variable {links : List Link} {n : Node}

theorem mem_incoming {l : Link} : l ∈ incoming links n ↔ l ∈ links ∧ l.target = n := by
  simp [incoming]

theorem exists_link_of_incoming (h : incoming links n ≠ []) : ∃ l ∈ links, l.target = n := by
  obtain ⟨l, hl⟩ := List.exists_mem_of_ne_nil _ h
  exact ⟨l, mem_incoming.mp hl⟩

theorem Ready.mono {done done' : List Node} (h : Ready links done n)
    (hsub : ∀ m ∈ done, m ∈ done') : Ready links done' n := by
  intro l hl ht
  exact hsub _ (h l hl ht)

theorem ready_of_perm {links' : List Link} (h : links.Perm links') {done : List Node}
    (hr : Ready links done n) : Ready links' done n := by
  intro l hl ht
  exact hr l (h.mem_iff.mpr hl) ht

theorem incoming_perm {links' : List Link} (h : links.Perm links') :
    (incoming links n).Perm (incoming links' n) := h.filter _

theorem wins_congr {links' : List Link} (h : (incoming links n).Perm (incoming links' n))
    {r r' : Report} (hget : ∀ l ∈ links, l.target = n → r.get? l.source = r'.get? l.source) :
    wins links r n = wins links' r' n := by
  unfold wins
  rw [← h.countP_eq]
  apply List.countP_congr
  intro l hl
  obtain ⟨hl, ht⟩ := mem_incoming.mp hl
  simp only [decide_eq_true_eq]
  unfold Wins
  rw [hget l hl ht]

theorem admits_congr {d e : Draft} (hin : (incoming d.links n).Perm (incoming e.links n))
    (hjoin : d.joinOf n = e.joinOf n) {r r' : Report}
    (hget : ∀ l ∈ d.links, l.target = n → r.get? l.source = r'.get? l.source) :
    d.Admits r n ↔ e.Admits r' n := by
  have hnil : incoming d.links n = [] ↔ incoming e.links n = [] := by
    rw [← List.length_eq_zero_iff, ← List.length_eq_zero_iff, hin.length_eq]
  unfold Draft.Admits
  rw [hnil, ← hjoin, wins_congr hin hget, hin.length_eq]

theorem resolve_congr {d e : Draft} (hin : (incoming d.links n).Perm (incoming e.links n))
    (hjoin : d.joinOf n = e.joinOf n) (body : Node → Body) {r r' : Report}
    (hget : ∀ l ∈ d.links, l.target = n → r.get? l.source = r'.get? l.source) :
    d.resolve body r n = e.resolve body r' n := by
  unfold Draft.resolve
  by_cases h : d.Admits r n
  · rw [if_pos h, if_pos ((admits_congr hin hjoin hget).mp h)]
  · rw [if_neg h, if_neg (fun h' => h ((admits_congr hin hjoin hget).mpr h'))]

end Rule

namespace Plan

theorem feeds_perm (p : Plan) (n : Node) :
    (p.feeds n).Perm ((incoming p.links n).map fun l => (l.source, l.branch)) := by
  have hfeeds : p.feeds n = (Branch.all.flatMap fun b =>
      (incoming p.links n).filter fun l => l.branch = b).map fun l => (l.source, l.branch) := by
    unfold feeds incoming
    rw [List.map_flatMap]
    congr 1
    funext b
    rw [feeding_eq, List.map_map, List.filter_filter]
    simp only [Bool.and_comm, ← Bool.decide_and]
    apply List.map_congr_left
    intro l hl
    have hb : l.target = n ∧ l.branch = b := by simpa using (List.mem_filter.mp hl).2
    simp [hb.2]
  have hgroup := flatMap_filter_perm_self Link.branch (by decide : Branch.all.Nodup)
    fun l (_ : l ∈ incoming p.links n) => Branch.mem_all l.branch
  rw [hfeeds]
  exact hgroup.map _

theorem exists_link_of_mem_feeds {p : Plan} {n : Node} {f : Node × Branch} (h : f ∈ p.feeds n) :
    ∃ l ∈ p.links, l.target = n ∧ (l.source, l.branch) = f := by
  obtain ⟨l, hl, hf⟩ := List.mem_map.mp ((p.feeds_perm n).mem_iff.mp h)
  obtain ⟨hl, ht⟩ := mem_incoming.mp hl
  exact ⟨l, hl, ht, hf⟩

theorem any_continuesOn_eq (r : Report) (l : Link) :
    ((r.get? l.source).any fun o => o.continuesOn l.branch) = decide (Wins r l) := by
  rw [Bool.eq_iff_iff, decide_eq_true_eq]
  unfold Wins
  cases r.get? l.source with
  | none => simp
  | some o => simp [Outcome.continuesOn_iff]

theorem tally_eq (p : Plan) (r : Report) (n : Node) :
    p.tally r n = ⟨(incoming p.links n).length,
      (incoming p.links n).countP fun l => r.contains l.source, wins p.links r n⟩ := by
  have h := p.feeds_perm n
  unfold tally Report.tally wins
  rw [h.length_eq, h.countP_eq, h.countP_eq, List.length_map, List.countP_map, List.countP_map]
  simp only [Function.comp_def, any_continuesOn_eq]

theorem tally_congr {p : Plan} {n : Node} {r r' : Report}
    (h : ∀ l ∈ p.links, l.target = n → r.get? l.source = r'.get? l.source) :
    p.tally r n = p.tally r' n := by
  have hknown : (incoming p.links n).countP (fun l => r.contains l.source) =
      (incoming p.links n).countP fun l => r'.contains l.source := by
    apply List.countP_congr
    intro l hl
    obtain ⟨hl, ht⟩ := mem_incoming.mp hl
    rw [OrderedMap.contains_eq_isSome, OrderedMap.contains_eq_isSome, h l hl ht]
  rw [tally_eq, tally_eq, hknown, wins_congr (.refl _) h]

theorem known_eq_total_iff {p : Plan} {r : Report} {n : Node} :
    (p.tally r n).known = (p.tally r n).total ↔ Ready p.links r.keys n := by
  rw [tally_eq]
  simp only [List.countP_eq_length, mem_incoming, OrderedMap.contains_iff, and_imp]
  rfl

theorem known_lt_total_iff {p : Plan} {r : Report} {n : Node} :
    (p.tally r n).known < (p.tally r n).total ↔ ¬ Ready p.links r.keys n := by
  have hle : (p.tally r n).known ≤ (p.tally r n).total := List.countP_le_length
  rw [← known_eq_total_iff]
  omega

/-- A plan waits for the sources of a node, then follows the rule of its join. -/
theorem verdict_eq (p : Plan) (r : Report) (n : Node) :
    p.verdict r n =
      if Ready p.links r.keys n then (if p.Admits r n then .run else .skip) else .wait := by
  have hk : (p.tally r n).known = (p.tally r n).total ↔ Ready p.links r.keys n :=
    known_eq_total_iff
  unfold verdict Tally.verdict
  by_cases hr : Ready p.links r.keys n
  · rw [if_pos hr, if_neg (not_not_intro (hk.mpr hr)), tally_eq]
    unfold Draft.Admits
    by_cases hnil : incoming p.links n = []
    · simp [hnil]
    · simp [List.length_eq_zero_iff, hnil, Join.admits_iff]
  · rw [if_neg hr, if_pos (fun h => hr (hk.mp h))]

section Verdict
variable {p : Plan} {r : Report} {n : Node}

theorem verdict_eq_run_iff :
    p.verdict r n = .run ↔ Ready p.links r.keys n ∧ p.Admits r n := by
  rw [verdict_eq]
  split
  · split <;> simp_all
  · simp_all

theorem verdict_eq_skip_iff :
    p.verdict r n = .skip ↔ Ready p.links r.keys n ∧ ¬ p.Admits r n := by
  rw [verdict_eq]
  split
  · split <;> simp_all
  · simp_all

theorem verdict_eq_wait_iff : p.verdict r n = .wait ↔ ¬ Ready p.links r.keys n := by
  rw [← known_eq_total_iff, verdict, Tally.verdict_eq_wait_iff]

theorem verdict_ne_wait_iff : p.verdict r n ≠ .wait ↔ Ready p.links r.keys n := by
  rw [ne_eq, verdict_eq_wait_iff, Decidable.not_not]

end Verdict
end Plan
end Workflow
