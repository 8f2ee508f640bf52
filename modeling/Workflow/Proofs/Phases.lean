import Mathlib.Data.List.Induction
import Workflow.Call
import Workflow.Proofs.Reachability

/-!
# The two phases of a graph

While a graph is open its calls build a draft: the nodes that were declared, the legal ones of the
links that were asked for, and the joins that were set, each in the order of the calls. The first
activation of a sound draft closes the graph. From then on nothing changes it, and what it stores is
the plan compiled from the draft at that moment. The join of a node is the one that was set for it
last while the graph was open.
-/

namespace Workflow

set_option autoImplicit false

namespace Call

def nodes : Call → List Node
  | addNode n => [n]
  | _ => []

/-- The source, the target and the branch of the link that a call asks for. -/
def requests : Call → List (Node × Node × Branch)
  | addLink s t => [(s, t, .unconditional)]
  | addLinkOn s t b => [(s, t, some b)]
  | _ => []

def joins : Call → List (Node × Join)
  | setJoin n j => [(n, j)]
  | _ => []

end Call

/-- A link may lead to another node, on a branch exactly when it leaves a decision. -/
def LegalLink (r : Node × Node × Branch) : Prop := r.1 ≠ r.2.1 ∧ (r.2.2.isSome ↔ r.1.decides = true)

instance (r : Node × Node × Branch) : Decidable (LegalLink r) :=
  inferInstanceAs (Decidable (_ ∧ _))

namespace Link

def parts (l : Link) : Node × Node × Branch := (l.source, l.target, l.branch)

theorem legal (l : Link) : LegalLink l.parts := by
  refine ⟨l.source_ne_target, ?_⟩
  rw [← Bool.eq_iff_iff]
  exact l.branch_isSome

/-- A link is made of legal parts and of no others. -/
theorem make_cases (s t : Node) (b : Branch) :
    (∃ l, make (some s) (some t) b = .ok l ∧ l.parts = (s, t, b)) ∨
      (∃ e, make (some s) (some t) b = .error e) ∧ ¬ LegalLink (s, t, b) := by
  cases h : make (some s) (some t) b with
  | ok l =>
    obtain ⟨hs, ht, hb⟩ := make_eq_ok_iff.mp h
    cases hs
    cases ht
    exact .inl ⟨l, rfl, by rw [parts, hb]⟩
  | error e =>
    refine .inr ⟨⟨e, rfl⟩, ?_⟩
    intro ⟨hne, hb⟩
    let l : Link := ⟨s, t, b, Bool.eq_iff_iff.mpr hb, hne⟩
    have hok : make (some s) (some t) b = .ok l := make_eq_ok_iff.mpr ⟨rfl, rfl, rfl⟩
    rw [hok] at h
    cases h

end Link

/-- The draft that calls build on a graph that stays open. -/
structure Draft.Built (cs : List Call) (d : Draft) : Prop where
  nodes : d.nodes = cs.flatMap Call.nodes
  links : d.links.map Link.parts = (cs.flatMap Call.requests).filter LegalLink
  joins : d.joins = OrderedMap.ofList (cs.flatMap Call.joins)

namespace Draft.Built
variable {cs : List Call} {d : Draft}

theorem addNode (h : d.Built cs) (n : Node) : (d.addNode n).Built (cs ++ [.addNode n]) := by
  constructor
  · simp [Draft.addNode, h.nodes, Call.nodes]
  · simp [Draft.addNode, h.links, Call.requests]
  · simp [Draft.addNode, h.joins, Call.joins]

theorem setJoin (h : d.Built cs) (n : Node) (j : Join) :
    (d.setJoin n j).Built (cs ++ [.setJoin n j]) := by
  constructor
  · simp [Draft.setJoin, h.nodes, Call.nodes]
  · simp [Draft.setJoin, h.links, Call.requests]
  · simp [Draft.setJoin, h.joins, Call.joins, OrderedMap.ofList_concat]

theorem addLink (h : d.Built cs) {c : Call} {l : Link} (hn : c.nodes = [])
    (hr : c.requests = [l.parts]) (hj : c.joins = []) : (d.addLink l).Built (cs ++ [c]) := by
  constructor
  · simp [Draft.addLink, h.nodes, hn]
  · simp [Draft.addLink, h.links, hr, l.legal]
  · simp [Draft.addLink, h.joins, hj]

theorem keep (h : d.Built cs) {c : Call} (hn : c.nodes = [])
    (hr : c.requests.filter LegalLink = []) (hj : c.joins = []) : d.Built (cs ++ [c]) := by
  constructor
  · simp [h.nodes, hn]
  · simp only [h.links, List.flatMap_append, List.filter_append, List.flatMap_singleton, hr,
      List.append_nil]
  · simp [h.joins, hj]

end Draft.Built

namespace Graph

theorem call_link {d : Draft} {cs : List Call} (hd : d.Built cs) {c : Call} {s t : Node}
    {b : Branch} (hc : (building d).call c = (building d).adopt ((building d).addLink s t b))
    (hn : c.nodes = []) (hr : c.requests = [(s, t, b)]) (hj : c.joins = []) :
    ∃ e, ((building d).call c).2 = building e ∧ e.Built (cs ++ [c]) := by
  rw [hc]
  rcases Link.make_cases s t b with ⟨l, hl, hp⟩ | ⟨⟨e, he⟩, hillegal⟩
  · refine ⟨d.addLink l, ?_, hd.addLink hn (hp ▸ hr) hj⟩
    simp [addLink, edit, hl, adopt, Except.map]
  · refine ⟨d, ?_, hd.keep hn (by simp [hr, hillegal]) hj⟩
    simp [addLink, edit, he, adopt, Except.map]

/-- Any call but the activation leaves an open graph open, and has built what it asked for. -/
theorem call_building {d : Draft} {cs : List Call} (hd : d.Built cs) {c : Call}
    (hc : c ≠ .activate) :
    ∃ e, ((building d).call c).2 = building e ∧ e.Built (cs ++ [c]) := by
  cases c with
  | addNode n => exact ⟨_, rfl, hd.addNode n⟩
  | setJoin n j => exact ⟨_, rfl, hd.setJoin n j⟩
  | addLink s t => exact call_link hd rfl rfl rfl rfl
  | addLinkOn s t b => exact call_link hd rfl rfl rfl rfl
  | check => exact ⟨d, call_check_snd _, hd.keep rfl rfl rfl⟩
  | activate => exact absurd rfl hc

/-- The first successful activation splits the calls; the draft before it is what they built. -/
theorem after_empty_cases (cs : List Call) :
    (∃ d, empty.after cs = building d ∧ d.Built cs) ∨
      ∃ before later d, ∃ h : d.defects = [], cs = before ++ .activate :: later ∧
        empty.after before = building d ∧ d.Built before ∧
          empty.after cs = active (d.compile h) := by
  -- from the last call backwards: what a call adds to the draft goes to the end
  induction cs using List.reverseRecOn with
  | nil => exact .inl ⟨{}, rfl, rfl, rfl, rfl⟩
  | append_singleton cs c ih =>
    rcases ih with ⟨d, hd, hbuilt⟩ | ⟨before, later, d, h, hsplit, hd, hbuilt, hact⟩
    · by_cases hc : c = .activate
      · subst hc
        by_cases h : d.defects = []
        · refine .inr ⟨cs, [], d, h, rfl, hd, hbuilt, ?_⟩
          rw [after_append, hd, after_cons, call_activate h, after_nil]
        · refine .inl ⟨d, ?_, hbuilt.keep rfl rfl rfl⟩
          rw [after_append, hd, after_cons, call_activate_refused h, after_nil]
      · obtain ⟨e, he, hbuilt'⟩ := call_building hbuilt hc
        refine .inl ⟨e, ?_, hbuilt'⟩
        rw [after_append, hd, after_cons, he, after_nil]
    · refine .inr ⟨before, later ++ [c], d, h, by rw [hsplit]; simp, hd, hbuilt, ?_⟩
      rw [after_append, hact, after_active]

theorem call_activate_of_done {g : Graph} (h : (g.call .activate).1 = .done) :
    ∃ p, (g.call .activate).2 = active p := by
  cases g with
  | active p => exact ⟨p, by rw [call_active]⟩
  | building d =>
    by_cases hd : d.defects = []
    · exact ⟨d.compile hd, by rw [call_activate hd]⟩
    · rw [call_activate_refused hd] at h
      cases h

theorem after_of_activate_done {before : List Call} (later : List Call)
    (h : ((empty.after before).call .activate).1 = .done) :
    ∃ p, ((empty.after before).call .activate).2 = active p ∧
      empty.after (before ++ .activate :: later) = active p := by
  obtain ⟨p, hp⟩ := call_activate_of_done h
  exact ⟨p, hp, by rw [after_append, after_cons, hp, after_active]⟩

/-- The join that was set last for a node. -/
def lastJoin? (cs : List Call) (n : Node) : Option Join :=
  cs.reverse.findSome? fun c => c.joins.lookup n

theorem lastJoin?_concat (cs : List Call) (c : Call) (n : Node) :
    lastJoin? (cs ++ [c]) n = (c.joins.lookup n).or (lastJoin? cs n) := by
  unfold lastJoin?
  rw [List.reverse_concat, List.findSome?_cons]
  cases c.joins.lookup n <;> rfl

theorem joinOf_adopt_addLink (d : Draft) (s t : Node) (b : Branch) (n : Node) :
    ((building d).adopt ((building d).addLink s t b)).2.joinOf n = d.joinOf n := by
  unfold addLink edit
  rcases Link.make_cases s t b with ⟨l, hl, _⟩ | ⟨⟨e, he⟩, _⟩
  · rw [hl]
    rfl
  · rw [he]
    rfl

/-- What a call makes of the join of a node while the graph is open. -/
theorem joinOf_call (d : Draft) (c : Call) (n : Node) :
    ((building d).call c).2.joinOf n = (c.joins.lookup n).getD (d.joinOf n) := by
  cases c with
  | addNode m => rfl
  | setJoin m j =>
    have hset : ((building d).call (.setJoin m j)).2.joinOf n = (d.setJoin m j).joinOf n := rfl
    rw [hset, Draft.joinOf_setJoin, Call.joins, List.lookup_cons]
    by_cases h : n = m
    · rw [if_pos h, beq_iff_eq.mpr h]
      rfl
    · rw [if_neg h, beq_eq_false_iff_ne.mpr h]
      rfl
  | addLink s t => exact joinOf_adopt_addLink d s t .unconditional n
  | addLinkOn s t b => exact joinOf_adopt_addLink d s t (some b) n
  | check => rw [call_check_snd]; rfl
  | activate =>
    by_cases h : d.defects = []
    · rw [call_activate h]
      rfl
    · rw [call_activate_refused h]
      rfl

/-- As long as a graph is open, the join of a node is the one that was set last. -/
theorem joinOf_after_open {g : Graph} {cs : List Call} (h : (g.after cs).isActive = false)
    (n : Node) : (g.after cs).joinOf n = (lastJoin? cs n).getD (g.joinOf n) := by
  induction cs using List.reverseRecOn with
  | nil => rfl
  | append_singleton cs c ih =>
    rw [after_append, after_cons, after_nil] at h ⊢
    cases hd : g.after cs with
    | active p =>
      rw [hd, call_active] at h
      cases h
    | building d =>
      have hopen : (g.after cs).isActive = false := congrArg isActive hd
      have hlast : d.joinOf n = (lastJoin? cs n).getD (g.joinOf n) := by
        rw [← ih hopen, hd]
        rfl
      rw [joinOf_call, lastJoin?_concat, hlast]
      cases c.joins.lookup n <;> rfl

/-- The join of a node is the one that was set last, if one was set while the graph was open. -/
theorem joinOf_after (cs : List Call) (n : Node) :
    ((empty.after cs).isActive = false ∧
        (empty.after cs).joinOf n = (lastJoin? cs n).getD .one) ∨
      ∃ before later, cs = before ++ .activate :: later ∧ (empty.after before).isActive = false ∧
        ((empty.after before).call .activate).1 = .done ∧
        (empty.after cs).joinOf n = (lastJoin? before n).getD .one := by
  rcases after_empty_cases cs with ⟨d, hd, _⟩ | ⟨before, later, d, h, hsplit, hd, _, hact⟩
  · have hopen : (empty.after cs).isActive = false := congrArg isActive hd
    exact .inl ⟨hopen, joinOf_after_open hopen n⟩
  · have hopen : (empty.after before).isActive = false := congrArg isActive hd
    refine .inr ⟨before, later, hsplit, hopen, by rw [hd, call_activate h], ?_⟩
    -- the plan has the joins of the draft that it was compiled from
    have hplan : (empty.after cs).joinOf n = (empty.after before).joinOf n := by
      rw [hact, hd]
      rfl
    rw [hplan]
    exact joinOf_after_open hopen n

/-- What holds of a graph that calls have made of the empty one. -/
structure Life (cs : List Call) (g : Graph) : Prop where
  legal : ∀ l ∈ g.links, l.source ≠ l.target ∧ (l.branch.isSome ↔ l.source.decides = true)
  /-- The nodes, links and joins are those of the calls, up to the activation. -/
  built : ∃ asked, asked <+: cs ∧ g.draft.Built asked ∧ (g.isActive = false → asked = cs)
  refused : ∀ c, (g.call c).1 ≠ .done → (g.call c).2 = g
  activated : g.isActive = true ↔ ∃ before later, cs = before ++ .activate :: later ∧
    ((empty.after before).call .activate).1 = .done
  /-- An activation that is done settles the graph for good. -/
  frozen : ∀ before later, cs = before ++ .activate :: later →
    ((empty.after before).call .activate).1 = .done →
      g = ((empty.after before).call .activate).2 ∧
        (∀ c, c.edits = true → (g.call c).1 = .refused .frozen) ∧ (g.call .activate).1 = .done
  compiled : ∀ p, g = active p →
    (Validation.orphans p.nodes p.links = [] ∧ Validation.cycles p.links = [] ∧
      Validation.undeclared p.nodes p.links = [] ∧ Validation.duplicates p.nodes = []) ∧
    p.initial = p.sources ∧ p.followers = Adjacency.followers p.links ∧
      p.ancestors = Adjacency.ancestors p.links

/-- A graph lives in two phases: it is built by its calls until an activation is done, and stays as
it is from then on. -/
theorem life_of_calls (cs : List Call) : Life cs (empty.after cs) where
  legal := fun l _ => l.legal
  built := by
    rcases after_empty_cases cs with ⟨d, hd, hbuilt⟩ | ⟨before, later, d, h, hsplit, _, hbuilt, hact⟩
    · exact ⟨cs, List.prefix_refl cs, hd ▸ hbuilt, fun _ => rfl⟩
    · rw [hact]
      refine ⟨before, hsplit ▸ List.prefix_append _ _, hbuilt, ?_⟩
      intro hopen
      cases hopen
  refused := fun _ h => call_of_ne_done h
  activated := by
    constructor
    · intro hactive
      rcases after_empty_cases cs with ⟨d, hd, _⟩ | ⟨before, later, d, h, hsplit, hd, _, _⟩
      · rw [hd] at hactive
        cases hactive
      · exact ⟨before, later, hsplit, by rw [hd, call_activate h]⟩
    · rintro ⟨before, later, rfl, hdone⟩
      obtain ⟨p, _, hafter⟩ := after_of_activate_done later hdone
      rw [hafter]
      rfl
  frozen := by
    rintro before later rfl hdone
    obtain ⟨p, hp, hafter⟩ := after_of_activate_done later hdone
    rw [hafter, hp]
    refine ⟨rfl, ?_, by rw [call_active]; rfl⟩
    intro c hc
    rw [call_active, if_pos hc]
  compiled := fun p _ => ⟨p.checks, p.initial_eq, p.followers_eq, p.ancestors_eq⟩

end Graph
end Workflow
