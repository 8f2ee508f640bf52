import Workflow.Proofs.Activation
import Workflow.Proofs.Visits

/-!
# Graphs side by side

Two drafts without a common node make one draft, the nodes of the one before those of the other and
the links mixed in any way. All that is asked of a node of one part, from the checks to the joins,
looks at links that touch that part; the links that do are its own, in their order. So the whole is
valid when both parts are, and a run of it is a run of the first part and then one of the second.
-/

namespace Workflow

set_option autoImplicit false

/-- The third list is the first two mixed, each in its own order. -/
inductive Mixed {α : Type} : List α → List α → List α → Prop where
  | nil : Mixed [] [] []
  | left {as bs cs : List α} (a : α) (rest : Mixed as bs cs) : Mixed (a :: as) bs (a :: cs)
  | right {as bs cs : List α} (b : α) (rest : Mixed as bs cs) : Mixed as (b :: bs) (b :: cs)

namespace Mixed
variable {α : Type} {as bs cs : List α}

theorem symm (h : Mixed as bs cs) : Mixed bs as cs := by
  induction h with
  | nil => exact .nil
  | left a _ ih => exact .right a ih
  | right b _ ih => exact .left b ih

theorem mem_iff (h : Mixed as bs cs) {c : α} : c ∈ cs ↔ c ∈ as ∨ c ∈ bs := by
  induction h with
  | nil => simp
  | left a _ ih => rw [List.mem_cons, List.mem_cons, ih, or_assoc]
  | right b _ ih => rw [List.mem_cons, List.mem_cons, ih, or_left_comm]

theorem filter_left (h : Mixed as bs cs) {P : α → Bool} (hbs : ∀ b ∈ bs, P b = false) :
    cs.filter P = as.filter P := by
  induction h with
  | nil => rfl
  | left a _ ih => rw [List.filter_cons, List.filter_cons, ih hbs]
  | right b _ ih =>
    rw [List.filter_cons_of_neg (by simp [hbs b List.mem_cons_self])]
    exact ih fun c hc => hbs c (List.mem_cons_of_mem b hc)

end Mixed

namespace Draft

/-- The node is declared or at an end of a link. -/
def Mentions (d : Draft) (n : Node) : Prop :=
  n ∈ d.nodes ∨ ∃ l ∈ d.links, l.source = n ∨ l.target = n

/-- The third draft is made of the first two, which have no node in common. -/
structure SideBySide (d e s : Draft) : Prop where
  apart : ∀ n, d.Mentions n → ¬ e.Mentions n
  nodes : s.nodes = d.nodes ++ e.nodes
  links : Mixed d.links e.links s.links
  join_left : ∀ n ∈ d.nodes, s.joinOf n = d.joinOf n
  join_right : ∀ n ∈ e.nodes, s.joinOf n = e.joinOf n

/-- Of the links of the second draft, those that touch the first are its own. -/
structure Part (d s : Draft) : Prop where
  filter : ∀ P : Link → Bool, (∀ l, P l = true → d.Mentions l.source ∨ d.Mentions l.target) →
    s.links.filter P = d.links.filter P
  join : ∀ n ∈ d.nodes, s.joinOf n = d.joinOf n

section Mentions
variable {d : Draft} {l : Link}

theorem mentions_source (h : l ∈ d.links) : d.Mentions l.source := .inr ⟨l, h, .inl rfl⟩

theorem mentions_target (h : l ∈ d.links) : d.Mentions l.target := .inr ⟨l, h, .inr rfl⟩

theorem mem_nodes_of_mentions (h : ∀ l ∈ d.links, l.source ∈ d.nodes ∧ l.target ∈ d.nodes)
    {n : Node} (hn : d.Mentions n) : n ∈ d.nodes := by
  rcases hn with hn | ⟨l, hl, rfl | rfl⟩
  · exact hn
  · exact (h l hl).1
  · exact (h l hl).2

end Mentions

namespace SideBySide
variable {d e s : Draft}

theorem part_left (h : d.SideBySide e s) : d.Part s := by
  refine ⟨?_, h.join_left⟩
  intro P hP
  apply h.links.filter_left
  intro l hl
  apply Bool.eq_false_iff.mpr
  intro hl'
  rcases hP l hl' with hs | ht
  · exact h.apart _ hs (mentions_source hl)
  · exact h.apart _ ht (mentions_target hl)

theorem part_right (h : d.SideBySide e s) : e.Part s := by
  refine ⟨?_, h.join_right⟩
  intro P hP
  apply h.links.symm.filter_left
  intro l hl
  apply Bool.eq_false_iff.mpr
  intro hl'
  rcases hP l hl' with hs | ht
  · exact h.apart _ (mentions_source hl) hs
  · exact h.apart _ (mentions_target hl) ht

end SideBySide

namespace Part
variable {d s : Draft} {n m : Node} {done before agenda : List Node}

theorem incoming_eq (h : d.Part s) (hn : d.Mentions n) :
    incoming s.links n = incoming d.links n := by
  apply h.filter
  intro l hl
  rw [of_decide_eq_true hl]
  exact .inr hn

theorem leaving_eq (h : d.Part s) (hn : d.Mentions n) :
    (s.links.filter fun l => l.source = n) = d.links.filter fun l => l.source = n := by
  apply h.filter
  intro l hl
  rw [of_decide_eq_true hl]
  exact .inl hn

theorem heirs_eq (h : d.Part s) (hn : d.Mentions n) : heirs s.links n = heirs d.links n := by
  unfold heirs
  congr 1
  funext b
  rw [h.filter]
  intro l hl
  rw [(of_decide_eq_true hl).1]
  exact .inl hn

theorem linked_iff (h : d.Part s) (hm : d.Mentions m) :
    Linked s.links m n ↔ Linked d.links m n := by
  rw [← mem_heirs, ← mem_heirs, h.heirs_eq hm]

theorem mentions_of_linked (hl : Linked d.links m n) : d.Mentions n := by
  obtain ⟨l, hl, _, rfl⟩ := hl
  exact mentions_target hl

/-- Nothing leads out of a part. -/
theorem transGen_iff (h : d.Part s) (hm : d.Mentions m) :
    Relation.TransGen (Linked s.links) m n ↔ Relation.TransGen (Linked d.links) m n := by
  constructor
  · intro hr
    suffices hboth : Relation.TransGen (Linked d.links) m n ∧ d.Mentions n from hboth.1
    induction hr with
    | single hl =>
      have hl := (h.linked_iff hm).mp hl
      exact ⟨.single hl, mentions_of_linked hl⟩
    | tail _ hl ih =>
      have hl := (h.linked_iff ih.2).mp hl
      exact ⟨ih.1.tail hl, mentions_of_linked hl⟩
  · apply Relation.TransGen.mono
    rintro _ _ ⟨l, hl, rfl, rfl⟩
    exact (h.linked_iff (mentions_source hl)).mpr ⟨l, hl, rfl, rfl⟩

theorem ready_iff (h : d.Part s) (hbefore : ∀ m ∈ before, ¬ d.Mentions m) (hn : d.Mentions n) :
    Ready s.links (before ++ done) n ↔ Ready d.links done n := by
  have hlinks : ∀ l, l ∈ s.links ∧ l.target = n ↔ l ∈ d.links ∧ l.target = n := by
    intro l
    rw [← mem_incoming, ← mem_incoming, h.incoming_eq hn]
  constructor
  · intro hr l hl ht
    obtain ⟨hs, _⟩ := (hlinks l).mpr ⟨hl, ht⟩
    rcases List.mem_append.mp (hr l hs ht) with hm | hm
    · exact absurd (mentions_source hl) (hbefore _ hm)
    · exact hm
  · intro hr l hl ht
    obtain ⟨hd, _⟩ := (hlinks l).mp ⟨hl, ht⟩
    exact List.mem_append_right _ (hr l hd ht)

theorem due_iff (h : d.Part s) (hbefore : ∀ m ∈ before, ¬ d.Mentions m) (hn : d.Mentions n) :
    Due s.links (before ++ done) n ↔ Due d.links done n := by
  have hnew : n ∉ before ++ done ↔ n ∉ done := by
    rw [List.mem_append, not_or]
    exact and_iff_right fun hm => hbefore n hm hn
  unfold Due
  rw [hnew, h.ready_iff hbefore hn]

/-- A walk through a part is the same in the whole, whatever was done elsewhere. -/
theorem walk_eq (h : d.Part s) (hbefore : ∀ m ∈ before, ¬ d.Mentions m)
    (hagenda : ∀ n ∈ agenda, d.Mentions n) :
    walk s.links agenda (before ++ done) = walk d.links agenda done := by
  fun_induction walk d.links agenda done with
  | case1 done => rw [walk]
  | case2 n agenda done hn ih =>
    have hmn := hagenda n List.mem_cons_self
    rw [walk, if_pos ((h.due_iff hbefore hmn).mpr hn), h.heirs_eq hmn, List.append_assoc, ih]
    intro m hm
    rcases List.mem_append.mp hm with hm | hm
    · exact mentions_of_linked (mem_heirs.mp hm)
    · exact hagenda m (List.mem_cons_of_mem n hm)
  | case3 n agenda done hn ih =>
    have hmn := hagenda n List.mem_cons_self
    rw [walk, if_neg (mt (h.due_iff hbefore hmn).mp hn)]
    exact ih fun m hm => hagenda m (List.mem_cons_of_mem n hm)

end Part

namespace SideBySide
variable {d e s : Draft}

open Validation

theorem orphans_eq (h : d.SideBySide e s) :
    orphans s.nodes s.links = orphans d.nodes d.links ++ orphans e.nodes e.links := by
  have hpart : ∀ {f : Draft}, f.Part s → orphans f.nodes s.links = orphans f.nodes f.links := by
    intro f hf
    unfold orphans
    apply List.filter_congr
    intro n hn
    have hmem : n ∈ s.links.map Link.source ↔ n ∈ f.links.map Link.source := by
      have hleaving := congrArg (· ≠ []) (hf.leaving_eq (.inl hn))
      simpa [List.filter_eq_nil_iff] using hleaving
    simp [hmem]
  rw [← hpart h.part_left, ← hpart h.part_right, h.nodes]
  exact List.filter_append ..

theorem acyclic_iff (h : d.SideBySide e s) :
    Acyclic s.links ↔ Acyclic d.links ∧ Acyclic e.links := by
  have hpart : ∀ {f : Draft}, f.Part s → (∀ n, f.Mentions n →
      ¬ Relation.TransGen (Linked s.links) n n) → Acyclic f.links := by
    intro f hf hs n hn
    obtain ⟨_, ⟨l, hl, rfl, _⟩, _⟩ := Relation.TransGen.head'_iff.mp hn
    have hm : f.Mentions l.source := mentions_source hl
    exact hs _ hm ((hf.transGen_iff hm).mpr hn)
  constructor
  · intro hs
    exact ⟨hpart h.part_left fun n _ => hs n, hpart h.part_right fun n _ => hs n⟩
  · rintro ⟨hd, he⟩ n hn
    -- a cycle begins with a link of one part and does not leave it
    obtain ⟨_, ⟨l, hl, rfl, _⟩, _⟩ := Relation.TransGen.head'_iff.mp hn
    rcases h.links.mem_iff.mp hl with hl | hl
    · exact hd _ ((h.part_left.transGen_iff (mentions_source hl)).mp hn)
    · exact he _ ((h.part_right.transGen_iff (mentions_source hl)).mp hn)

theorem declared_iff (h : d.SideBySide e s) :
    (∀ l ∈ s.links, l.source ∈ s.nodes ∧ l.target ∈ s.nodes) ↔
      (∀ l ∈ d.links, l.source ∈ d.nodes ∧ l.target ∈ d.nodes) ∧
        ∀ l ∈ e.links, l.source ∈ e.nodes ∧ l.target ∈ e.nodes := by
  have hleft : ∀ {n}, d.Mentions n → (n ∈ s.nodes ↔ n ∈ d.nodes) := by
    intro n hn
    rw [h.nodes, List.mem_append]
    exact or_iff_left fun hm => h.apart n hn (.inl hm)
  have hright : ∀ {n}, e.Mentions n → (n ∈ s.nodes ↔ n ∈ e.nodes) := by
    intro n hn
    rw [h.nodes, List.mem_append]
    exact or_iff_right fun hm => h.apart n (.inl hm) hn
  constructor
  · intro hs
    constructor
    · intro l hl
      rw [← hleft (mentions_source hl), ← hleft (mentions_target hl)]
      exact hs l (h.links.mem_iff.mpr (.inl hl))
    · intro l hl
      rw [← hright (mentions_source hl), ← hright (mentions_target hl)]
      exact hs l (h.links.mem_iff.mpr (.inr hl))
  · rintro ⟨hd, he⟩ l hl
    rcases h.links.mem_iff.mp hl with hl | hl
    · rw [hleft (mentions_source hl), hleft (mentions_target hl)]
      exact hd l hl
    · rw [hright (mentions_source hl), hright (mentions_target hl)]
      exact he l hl

theorem nodup_iff (h : d.SideBySide e s) : s.nodes.Nodup ↔ d.nodes.Nodup ∧ e.nodes.Nodup := by
  rw [h.nodes, List.nodup_append]
  constructor
  · rintro ⟨hd, he, _⟩
    exact ⟨hd, he⟩
  · rintro ⟨hd, he⟩
    refine ⟨hd, he, ?_⟩
    rintro m hm n hn rfl
    exact h.apart m (.inl hm) (.inl hn)

theorem defects_eq_nil_iff (h : d.SideBySide e s) :
    s.defects = [] ↔ d.defects = [] ∧ e.defects = [] := by
  unfold Draft.defects
  simp only [Validation.defects_eq_nil_iff, cycles_eq_nil_iff, undeclared_eq_nil_iff,
    duplicates_eq_nil_iff]
  rw [h.orphans_eq, List.append_eq_nil_iff, h.acyclic_iff, h.declared_iff, h.nodup_iff]
  tauto

end SideBySide
end Draft

theorem Draft.SideBySide.visitOrder_eq {d e s : Draft} (h : d.SideBySide e s)
    (hd : ∀ n ∈ visitOrder d.nodes d.links, n ∈ d.nodes) :
    visitOrder s.nodes s.links = visitOrder d.nodes d.links ++ visitOrder e.nodes e.links := by
  have hinitial : ∀ {f : Draft}, f.Part s →
      (f.nodes.filter fun n => incoming s.links n = []) =
        f.nodes.filter fun n => incoming f.links n = [] := by
    intro f hf
    apply List.filter_congr
    intro n hn
    rw [hf.incoming_eq (.inl hn)]
  have hagenda : ∀ {f : Draft}, ∀ n ∈ f.nodes.filter fun n => incoming f.links n = [],
      f.Mentions n := fun n hn => .inl (List.mem_filter.mp hn).1
  have hleft : walk s.links (d.nodes.filter fun n => incoming d.links n = []) ([] ++ []) =
      visitOrder d.nodes d.links := h.part_left.walk_eq (fun m hm => by cases hm) hagenda
  have hright : walk s.links (e.nodes.filter fun n => incoming e.links n = [])
      (visitOrder d.nodes d.links ++ []) = visitOrder e.nodes e.links :=
    h.part_right.walk_eq (fun m hm => h.apart m (.inl (hd m hm))) hagenda
  rw [List.append_nil] at hleft hright
  rw [visitOrder, h.nodes, List.filter_append, hinitial h.part_left, hinitial h.part_right,
    walk_append, hleft, List.nil_append, hright]

theorem OrderedMap.get?_of_entries_append {κ υ : Type} [DecidableEq κ] {m b l : OrderedMap κ υ}
    (h : m.entries = b.entries ++ l.entries) {k : κ} (hk : k ∉ b.keys) : m.get? k = l.get? k := by
  apply Option.ext
  intro v
  rw [get?_eq_some_iff, get?_eq_some_iff, h, List.mem_append]
  exact or_iff_right fun hb => hk (fst_mem_keys hb)

/-- The second stage is the first with the entries of a report in front. -/
structure Stage.Behind (before : Report) (u v : Stage) : Prop where
  context : v.context = u.context
  entries : v.report.entries = before.entries ++ u.report.entries

namespace Draft
variable {d s : Draft} {body : Node → Body} {n : Node} {ns ms : List Node} {t u v : Stage}
  {before : Report}

theorem perform_append (h : d.perform body ns u = (none, t)) :
    d.perform body (ns ++ ms) u = d.perform body ms t := by
  induction ns generalizing u with
  | nil =>
    cases h
    rfl
  | cons n ns ih =>
    obtain ⟨ho, h⟩ := perform_cons_eq_none_iff.mp h
    rw [List.cons_append, perform_cons ho]
    exact ih h

theorem perform_append_abort {a : Abort} (h : d.perform body ns u = (some a, t)) :
    d.perform body (ns ++ ms) u = (some a, t) := by
  induction ns generalizing u with
  | nil => cases h
  | cons n ns ih =>
    rw [List.cons_append]
    rcases perform_cons_cases h with ⟨f, hf, ha, ht⟩ | ⟨ho, h⟩
    · rw [perform_cons_abort hf, ha, ht]
    · rw [perform_cons ho]
      exact ih h

theorem Part.settle_behind (h : d.Part s) (hbefore : ∀ m ∈ before.keys, ¬ d.Mentions m)
    (body : Node → Body) (hn : n ∈ d.nodes) (hnew : n ∉ u.report.keys) (huv : u.Behind before v) :
    (s.settle body n v).1 = (d.settle body n u).1 ∧
      (d.settle body n u).2.Behind before (s.settle body n v).2 := by
  have hresolve : s.resolve body v.report n = d.resolve body u.report n := by
    apply resolve_congr (.of_eq (h.incoming_eq (.inl hn))) (h.join n hn)
    intro l hl ht
    have hl : l ∈ incoming d.links n := h.incoming_eq (.inl hn) ▸ mem_incoming.mpr ⟨hl, ht⟩
    apply OrderedMap.get?_of_entries_append huv.entries
    exact fun hb => hbefore _ hb (mentions_source (mem_incoming.mp hl).1)
  have hnew' : n ∉ v.report.keys := by
    rw [OrderedMap.keys, huv.entries, List.map_append, List.mem_append, not_or]
    exact ⟨fun hb => hbefore n hb (.inl hn), hnew⟩
  unfold settle
  rw [hresolve, huv.context]
  refine ⟨rfl, rfl, ?_⟩
  dsimp only
  rw [OrderedMap.entries_insert_of_notMem hnew', OrderedMap.entries_insert_of_notMem hnew,
    huv.entries, List.append_assoc]

/-- A part is performed in the whole as it is alone, whatever was recorded elsewhere before. -/
theorem Part.perform_behind (h : d.Part s) (huv : u.Behind before v)
    (hbefore : ∀ m ∈ before.keys, ¬ d.Mentions m) (hns : ∀ n ∈ ns, n ∈ d.nodes)
    (horder : ReadyOrder d.links u.report.keys ns) {a : Option Abort}
    (ht : d.perform body ns u = (a, t)) :
    ∃ w, s.perform body ns v = (a, w) ∧ t.Behind before w := by
  induction ns generalizing u v with
  | nil =>
    cases ht
    exact ⟨v, rfl, huv⟩
  | cons n ns ih =>
    obtain ⟨hn, hrest⟩ := horder
    obtain ⟨ho, hnext⟩ := h.settle_behind hbefore body (hns n List.mem_cons_self) hn.1 huv
    rcases perform_cons_cases ht with ⟨f, hf, ha, rfl⟩ | ⟨hcalm, ht⟩
    · exact ⟨_, by rw [perform_cons_abort (ho.trans hf), ha], hnext⟩
    · rw [perform_cons (ho ▸ hcalm)]
      exact ih hnext (fun m hm => hns m (List.mem_cons_of_mem n hm))
        (keys_settle d body hn.1 ▸ hrest) ht

theorem Part.perform_after (h : d.Part s) (hbefore : ∀ m ∈ v.report.keys, ¬ d.Mentions m)
    (hns : ∀ n ∈ ns, n ∈ d.nodes) (horder : ReadyOrder d.links [] ns) {a : Option Abort}
    (ht : d.perform body ns (.ofContext v.context) = (a, t)) :
    ∃ w, s.perform body ns v = (a, w) ∧ t.Behind v.report w := by
  have hstart : (Stage.ofContext v.context).Behind v.report v := ⟨rfl, (List.append_nil _).symm⟩
  exact h.perform_behind hstart hbefore hns horder ht

theorem Part.perform_eq (h : d.Part s) (hns : ∀ n ∈ ns, n ∈ d.nodes)
    (horder : ReadyOrder d.links [] ns) {c : Context} {a : Option Abort}
    (ht : d.perform body ns (.ofContext c) = (a, t)) :
    s.perform body ns (.ofContext c) = (a, t) := by
  have hnone : ∀ m ∈ (Stage.ofContext c).report.keys, ¬ d.Mentions m := by
    intro m hm
    cases hm
  obtain ⟨w, hw, hcontext, hentries⟩ := h.perform_after hnone hns horder ht
  have hreport : w.report = t.report := OrderedMap.ext hentries
  have hwt : w = t := by
    cases w
    cases t
    cases hcontext
    cases hreport
    rfl
  rw [hw, hwt]

end Draft

namespace Draft.SideBySide
variable {p q r : Plan} {body : Node → Body} {c : Context} {t : Stage}

theorem perform_abort (h : p.SideBySide q.toDraft r.toDraft) {a : Abort}
    (ht : p.perform body (visitOrder p.nodes p.links) (.ofContext c) = (some a, t)) :
    r.perform body (visitOrder r.nodes r.links) (.ofContext c) = (some a, t) := by
  have hnodes : ∀ n ∈ visitOrder p.nodes p.links, n ∈ p.nodes := fun n hn => p.mem_visitOrder.mp hn
  rw [h.visitOrder_eq hnodes]
  apply Draft.perform_append_abort
  exact h.part_left.perform_eq hnodes (visitOrder_readyOrder p.nodes p.links) ht

/-- When the first part comes to its end the second is performed after it. -/
theorem perform_behind (h : p.SideBySide q.toDraft r.toDraft) {b : Option Abort} {u : Stage}
    (ht : p.perform body (visitOrder p.nodes p.links) (.ofContext c) = (none, t))
    (hu : q.perform body (visitOrder q.nodes q.links) (.ofContext t.context) = (b, u)) :
    ∃ w, r.perform body (visitOrder r.nodes r.links) (.ofContext c) = (b, w) ∧
      u.Behind t.report w := by
  have hnodes : ∀ n ∈ visitOrder p.nodes p.links, n ∈ p.nodes := fun n hn => p.mem_visitOrder.mp hn
  have horder := visitOrder_readyOrder p.nodes p.links
  have hkeys : ∀ m ∈ t.report.keys, ¬ q.Mentions m := by
    intro m hm
    rw [Draft.keys_perform ht horder] at hm
    exact h.apart m (.inl (hnodes m hm))
  rw [h.visitOrder_eq hnodes, Draft.perform_append (h.part_left.perform_eq hnodes horder ht)]
  apply h.part_right.perform_after hkeys _ (visitOrder_readyOrder q.nodes q.links) hu
  exact fun n hn => q.mem_visitOrder.mp hn

end Draft.SideBySide

/-- The third run is the first one and, if that is completed, the second one after it. -/
structure InTurn (x y z : Except RunError Unit × Run) : Prop where
  aborted : x.1 ≠ .ok () →
    z.1 = x.1 ∧ z.2.report = x.2.report ∧ z.2.context = x.2.context
  completed : x.1 = .ok () →
    z.1 = y.1 ∧ z.2.report.entries = x.2.report.entries ++ y.2.report.entries ∧
      z.2.context = y.2.context

/-- A run of two parts side by side is a run of the first and then one of the second. -/
theorem Draft.SideBySide.inTurn {p q r : Plan} (h : p.SideBySide q.toDraft r.toDraft)
    (body : Node → Body) (c : Context) :
    InTurn (Run.compute body (.ofPlan p c))
      (Run.compute body (.ofPlan q (Run.compute body (.ofPlan p c)).2.context))
      (Run.compute body (.ofPlan r c)) := by
  obtain ⟨a, t, ht, hx, hxs⟩ := Run.compute_ofPlan p body c
  obtain ⟨b, u, hu, hy, hys⟩ :=
    Run.compute_ofPlan q body (Run.compute body (.ofPlan p c)).2.context
  obtain ⟨f, w, hw, hz, hzs⟩ := Run.compute_ofPlan r body c
  cases a with
  | some a =>
    rw [h.perform_abort ht] at hw
    cases hw
    refine ⟨?_, ?_⟩
    · intro _
      exact ⟨hz.trans hx.symm, congrArg Stage.report (hzs.trans hxs.symm),
        congrArg Stage.context (hzs.trans hxs.symm)⟩
    · intro hok
      rw [hx] at hok
      cases hok
  | none =>
    have hcontext : (Run.compute body (.ofPlan p c)).2.context = t.context :=
      congrArg Stage.context hxs
    have hreport : (Run.compute body (.ofPlan p c)).2.report = t.report :=
      congrArg Stage.report hxs
    rw [hcontext] at hu hy hys ⊢
    obtain ⟨v, hv, hbehind⟩ := h.perform_behind ht hu
    rw [hv] at hw
    cases hw
    refine ⟨?_, ?_⟩
    · intro habort
      exact absurd hx habort
    · intro _
      have hentries : (Run.compute body (.ofPlan r c)).2.report.entries =
          t.report.entries ++ u.report.entries := by
        rw [← hbehind.entries]
        exact congrArg (fun s : Stage => s.report.entries) hzs
      have hlast : (Run.compute body (.ofPlan r c)).2.context = u.context := by
        rw [← hbehind.context]
        exact congrArg Stage.context hzs
      refine ⟨hz.trans hy.symm, ?_, ?_⟩
      · rw [hentries, hreport]
        exact congrArg (fun s : Stage => t.report.entries ++ s.report.entries) hys.symm
      · rw [hlast]
        exact congrArg Stage.context hys.symm

/-- Two graphs without a common node, put side by side, are valid together exactly when each is, and
are run one after the other. -/
theorem Draft.SideBySide.runs_in_turn {d e s : Draft} (h : d.SideBySide e s) :
    (s.defects = [] ↔ d.defects = [] ∧ e.defects = []) ∧
      ∀ p q r : Plan, p.toDraft = d → q.toDraft = e → r.toDraft = s →
        ∀ (body : Node → Body) (c : Context),
          InTurn (Run.compute body (.ofPlan p c))
            (Run.compute body (.ofPlan q (Run.compute body (.ofPlan p c)).2.context))
            (Run.compute body (.ofPlan r c)) := by
  refine ⟨h.defects_eq_nil_iff, ?_⟩
  rintro p q r rfl rfl rfl body c
  exact h.inTurn body c

namespace Sample

def audit : Node := ⟨6, "audit", false⟩
def notify : Node := ⟨7, "notify", false⟩

def shipping : Draft := ⟨nodes, links, ∅⟩

def auditing : Draft := ⟨[audit, notify], [⟨audit, notify, none, by decide, by decide⟩], ∅⟩

/-- The link of `auditing` stands between the links of `shipping`. -/
def whole : Draft :=
  ⟨nodes ++ auditing.nodes, links.take 2 ++ auditing.links ++ links.drop 2, ∅⟩

theorem auditing_sound : auditing.defects = [] := by decide +kernel

theorem shipping_beside_auditing : shipping.SideBySide auditing whole := by
  have hapart : ∀ n ∈ shipping.nodes, n ∉ auditing.nodes := by decide
  refine ⟨?_, rfl, ?_, fun _ _ => rfl, fun _ _ => rfl⟩
  · intro n hn hn'
    exact hapart n (Draft.mem_nodes_of_mentions (shipping.compile sound).declared hn)
      (Draft.mem_nodes_of_mentions (auditing.compile auditing_sound).declared hn')
  · exact .left _ (.left _ (.right _ (.left _ (.left _ (.left _ (.left _ .nil))))))

theorem whole_sound : whole.defects = [] :=
  shipping_beside_auditing.defects_eq_nil_iff.mpr ⟨sound, auditing_sound⟩

/-- Every node leaves its name in the context, but `notify` fails when it finds that of `drop`. -/
def leaveName (n : Node) : Body :=
  .action fun c =>
    if n = notify ∧ Context.haveKey c "drop" then (.error ⟨"dropped", []⟩, c)
    else (.ok (), Context.store c n.name .null)

end Sample

open Sample in
theorem runs_in_turn_sample : shipping.SideBySide auditing whole ∧
    (whole.defects = [] ↔ shipping.defects = [] ∧ auditing.defects = []) ∧
    InTurn (Run.compute leaveName (.ofPlan (shipping.compile sound) ∅))
      (Run.compute leaveName (.ofPlan (auditing.compile auditing_sound)
        (Run.compute leaveName (.ofPlan (shipping.compile sound) ∅)).2.context))
      (Run.compute leaveName (.ofPlan (whole.compile whole_sound) ∅)) :=
  ⟨shipping_beside_auditing, (Draft.SideBySide.runs_in_turn shipping_beside_auditing).1,
    (Draft.SideBySide.runs_in_turn shipping_beside_auditing).2 (shipping.compile sound)
      (auditing.compile auditing_sound) (whole.compile whole_sound) rfl rfl rfl leaveName ∅⟩

end Workflow
