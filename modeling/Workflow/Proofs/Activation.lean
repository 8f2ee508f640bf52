import Workflow.Call
import Workflow.Proofs.VisitOrder

/-!
# What activation asks for

A draft is sound when its nodes are distinct, its links lead between them, every decision has a link
to follow, and the nodes can be put in an order in which all links go forward. The checks find
nothing wrong with a draft exactly when it is sound; the order is that of the visits.
-/

namespace Workflow

set_option autoImplicit false

/-- Every link leads from a node to a later one. -/
def Forward (links : List Link) (order : List Node) : Prop :=
  ∀ l ∈ links, order.idxOf l.source < order.idxOf l.target

structure Draft.Sound (d : Draft) : Prop where
  distinct : d.nodes.Nodup
  declared : ∀ l ∈ d.links, l.source ∈ d.nodes ∧ l.target ∈ d.nodes
  answered : ∀ n ∈ d.nodes, n.decides = true → ∃ l ∈ d.links, l.source = n
  ordered : ∃ order : List Node, order.Perm d.nodes ∧ Forward d.links order

theorem Forward.acyclic {links : List Link} {order : List Node} (h : Forward links order) :
    Acyclic links := by
  have hlt : ∀ {m n}, Relation.TransGen (Linked links) m n → order.idxOf m < order.idxOf n := by
    intro m n hmn
    induction hmn with
    | single hl =>
      obtain ⟨l, hl, rfl, rfl⟩ := hl
      exact h l hl
    | tail _ hl ih =>
      obtain ⟨l, hl, rfl, rfl⟩ := hl
      exact ih.trans (h l hl)
  intro n hn
  exact Nat.lt_irrefl _ (hlt hn)

theorem ReadyOrder.forward {links : List Link} {order : List Node} (h : ReadyOrder links [] order)
    (hmem : ∀ l ∈ links, l.target ∈ order) : Forward links order := by
  intro l hl
  obtain ⟨before, after, rfl⟩ := List.append_of_mem (hmem l hl)
  have hsource : l.source ∈ before := h.ready_of_append l hl rfl
  have htarget : l.target ∉ before := by
    intro hm
    exact (List.nodup_append.mp h.nodup).2.2 _ hm _ List.mem_cons_self rfl
  rw [List.idxOf_append_of_mem hsource, List.idxOf_append_of_notMem htarget, List.idxOf_cons_self]
  exact List.idxOf_lt_length_of_mem hsource

theorem Plan.sound (p : Plan) : p.Sound where
  distinct := p.nodes_nodup
  declared := p.declared
  answered := Validation.orphans_eq_nil_iff.mp p.checks.1
  ordered := by
    refine ⟨visitOrder p.nodes p.links, p.visitOrder_perm, ?_⟩
    apply (visitOrder_readyOrder p.nodes p.links).forward
    intro l hl
    exact p.mem_visitOrder.mpr (p.target_mem hl)

/-- Nothing is found wrong with a draft exactly when it is sound. -/
theorem Draft.defects_eq_nil_iff {d : Draft} : d.defects = [] ↔ d.Sound := by
  constructor
  · intro h
    exact (d.compile h).sound
  · intro h
    obtain ⟨order, _, hforward⟩ := h.ordered
    apply Validation.defects_eq_nil_iff.mpr
    exact ⟨Validation.orphans_eq_nil_iff.mpr h.answered,
      Validation.cycles_eq_nil_iff.mpr hforward.acyclic,
      Validation.undeclared_eq_nil_iff.mpr h.declared,
      Validation.duplicates_eq_nil_iff.mpr h.distinct⟩

/-- Activation is done exactly for sound drafts, whatever calls have built them; any other draft is
refused with what is wrong with it, and stays open as it is. -/
theorem Graph.activate_done_iff (d : Draft) :
    (((building d).call .activate).1 = .done ↔ d.Sound) ∧
      (d.Sound → ∃ p : Plan, p.toDraft = d ∧ ((building d).call .activate).2 = active p) ∧
      (¬ d.Sound → ∃ ds, ds ≠ [] ∧
        (building d).call .activate = (.refused (.invalid ds), building d)) := by
  by_cases h : d.defects = []
  · have hs : d.Sound := Draft.defects_eq_nil_iff.mp h
    rw [call_activate h]
    exact ⟨iff_of_true rfl hs, fun _ => ⟨d.compile h, rfl, rfl⟩, fun hn => absurd hs hn⟩
  · have hs : ¬ d.Sound := fun hs => h (Draft.defects_eq_nil_iff.mpr hs)
    rw [call_activate_refused h]
    refine ⟨iff_of_false (fun he => by cases he) hs, fun hn => absurd hn hs, ?_⟩
    intro _
    exact ⟨d.defects, h, rfl⟩

end Workflow
