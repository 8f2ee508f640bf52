import Mathlib.Data.List.Chain
import Mathlib.Data.List.Rotate
import Workflow.Proofs.FirstPath

/-!
# What the reported cycles tell

Every cycle that is reported is one: links of the list that lead through distinct nodes and back.
The nodes on the reported cycles are the nodes on any cycle. A search begins only at a node that no
earlier cycle explains; so each reported cycle has a node that is on none before it, and none is
reported again, from wherever on it one begins.
-/

namespace Workflow

set_option autoImplicit false

namespace Digraph
variable {ν ε : Type} {g : Digraph ν ε} {v w : ν} {as bs es : List ε}

theorem Path.split (h : g.Path v (as ++ bs) w) : ∃ u, g.Path v as u ∧ g.Path u bs w := by
  induction as generalizing v with
  | nil => exact ⟨v, .nil v, h⟩
  | cons a as ih =>
    cases h with
    | cons ha rest =>
      obtain ⟨u, hu, hrest⟩ := ih rest
      exact ⟨u, .cons ha hu, hrest⟩

theorem Path.mem_edges (h : g.Path v es w) : ∀ e ∈ es, e ∈ g.edges := by
  induction h with
  | nil v =>
    intro e he
    cases he
  | cons ha _ ih =>
    intro e he
    rcases List.mem_cons.mp he with rfl | he
    · exact ha
    · exact ih e he

theorem Path.source_head (h : g.Path v es w) : ∀ e ∈ es.head?, g.source e = v := by
  cases h with
  | nil v =>
    intro e he
    cases he
  | cons ha rest =>
    intro e he
    cases he
    rfl

theorem Path.target_getLast (h : g.Path v es w) : ∀ e ∈ es.getLast?, g.target e = w := by
  induction h with
  | nil v =>
    intro e he
    cases he
  | @cons a es w ha rest ih =>
    cases es with
    | nil =>
      intro e he
      cases he
      generalize hu : g.target a = u at rest
      cases rest
      exact hu
    | cons b es =>
      rw [List.getLast?_cons_cons]
      exact ih

theorem Path.isChain (h : g.Path v es w) : es.IsChain fun a b => g.target a = g.source b := by
  induction h with
  | nil v => exact .nil
  | cons ha rest ih =>
    apply List.isChain_cons.mpr
    exact ⟨fun b hb => (rest.source_head b hb).symm, ih⟩

/-- On a closed path every vertex that an edge leaves leads back to itself. -/
theorem Path.transGen (h : g.Path v es v) {e : ε} (he : e ∈ es) :
    Relation.TransGen g.Step (g.source e) (g.source e) := by
  obtain ⟨before, after, rfl⟩ := List.append_of_mem he
  obtain ⟨u, hu, hrest⟩ := h.split
  cases hrest with
  | cons he rest => exact .head' ⟨e, he, rfl, rfl⟩ (rest.reaches.trans hu.reaches)

variable [DecidableEq ν]

/-- The first edge of a cycle leaves a vertex that no edge of an earlier cycle leaves. -/
theorem cyclesFrom_pairwise (g : Digraph ν ε) (es : List ε) (explained : List ν) :
    (g.cyclesFrom es explained).Pairwise fun c d =>
      ∀ e ∈ d.head?, ∀ a ∈ c, g.source a ≠ g.source e := by
  induction es generalizing explained with
  | nil => exact .nil
  | cons b es ih =>
    rcases cyclesFrom_cons_cases g b es explained with ⟨_, heq⟩ | ⟨_, c, _, _, heq⟩
    · rw [heq]
      exact ih explained
    · rw [heq]
      apply List.pairwise_cons.mpr
      refine ⟨?_, ih _⟩
      intro d hd e he a ha hs
      obtain ⟨first, _, hfirst, hnew, _⟩ := cycleThrough_of_mem_cyclesFrom hd
      rw [hfirst] at he
      cases he
      exact hnew (List.mem_append_left _ (hs ▸ List.mem_map_of_mem ha))

end Digraph

/-- Links of the list that lead, one after another, through distinct nodes and back to where they
begin. -/
structure Cycle (links c : List Link) : Prop where
  nonempty : c ≠ []
  mem_links : ∀ l ∈ c, l ∈ links
  chain : c.IsChain fun l m => l.target = m.source
  closed : (c.getLast nonempty).target = (c.head nonempty).source
  distinct : (c.map Link.source).Nodup

namespace Validation
variable {links : List Link}

theorem cycle_of_cycleThrough {e : Link × Nat} {c : List (Link × Nat)}
    (he : e ∈ (linkGraph links).edges) (hc : (linkGraph links).cycleThrough e = some c) :
    (linkGraph links).Path e.1.source c e.1.source ∧ Cycle links (c.map Prod.fst) := by
  obtain ⟨es, rfl, hpath, hnodup⟩ := Digraph.simplePath_of_cycleThrough hc
  have hclosed : (linkGraph links).Path e.1.source (e :: es) e.1.source := .cons he hpath
  refine ⟨hclosed, ?_, ?_, ?_, ?_, ?_⟩
  · exact List.cons_ne_nil _ _
  · intro l hl
    obtain ⟨a, ha, rfl⟩ := List.mem_map.mp hl
    exact (List.mem_zipIdx' (hclosed.mem_edges a ha)).2 ▸ List.getElem_mem _
  · exact (List.isChain_map _).mpr hclosed.isChain
  · rw [List.getLast_map]
    exact hclosed.target_getLast _ (List.getLast?_eq_some_getLast _)
  · have hsources : ((e :: es).map Prod.fst).map Link.source =
        (linkGraph links).source e :: es.map (linkGraph links).source := by
      rw [List.map_map]
      rfl
    rw [hsources, List.nodup_cons]
    obtain ⟨hes, _, hdisjoint⟩ := List.nodup_append.mp hnodup
    exact ⟨fun hm => hdisjoint _ hm _ (List.mem_singleton.mpr rfl) rfl, hes⟩

theorem cycleThrough_of_mem_cycles {c : List Link} (h : c ∈ cycles links) :
    ∃ e ∈ (linkGraph links).edges, ∃ d,
      (linkGraph links).cycleThrough e = some d ∧ d.map Prod.fst = c := by
  obtain ⟨d, hd, rfl⟩ := List.mem_map.mp h
  obtain ⟨e, he, _, _, hc⟩ := Digraph.cycleThrough_of_mem_cyclesFrom hd
  exact ⟨e, he, d, hc, rfl⟩

theorem transGen_of_mem_cycles {c : List Link} (h : c ∈ cycles links) {l : Link} (hl : l ∈ c) :
    Relation.TransGen (Linked links) l.source l.source := by
  obtain ⟨e, he, d, hd, rfl⟩ := cycleThrough_of_mem_cycles h
  obtain ⟨a, ha, rfl⟩ := List.mem_map.mp hl
  rw [← step_eq_linked]
  exact (cycle_of_cycleThrough he hd).1.transGen ha

theorem exists_cycle_of_transGen {n : Node} (h : Relation.TransGen (Linked links) n n) :
    ∃ c ∈ cycles links, ∃ l ∈ c, l.source = n := by
  rw [← step_eq_linked] at h
  obtain ⟨m, ⟨e, he, rfl, rfl⟩, hback⟩ := Relation.TransGen.head'_iff.mp h
  obtain ⟨c, hc, a, ha, hs⟩ := (Digraph.explained_of_reaches he hback).resolve_left List.not_mem_nil
  exact ⟨c.map Prod.fst, List.mem_map_of_mem hc, a.1, List.mem_map_of_mem ha, hs⟩

theorem cycles_pairwise (links : List Link) :
    (cycles links).Pairwise fun c d => ∀ l ∈ d.head?, ∀ k ∈ c, k.source ≠ l.source := by
  apply List.pairwise_map.mpr
  apply ((linkGraph links).cyclesFrom_pairwise _ []).imp
  intro c d hnew l hl k hk
  rw [List.head?_map, Option.mem_map] at hl
  obtain ⟨e, he, rfl⟩ := hl
  obtain ⟨a, ha, rfl⟩ := List.mem_map.mp hk
  exact hnew e he a ha

end Validation

/-- A node of a cycle, where a link of it begins or ends. -/
def Meets (c : List Link) (n : Node) : Prop := ∃ l ∈ c, l.source = n ∨ l.target = n

/-- What a list of cycles has to be to tell of all cycles of the links, and of none twice. -/
structure CycleReport (links : List Link) (cs : List (List Link)) : Prop where
  genuine : ∀ c ∈ cs, Cycle links c
  cover : ∀ n, (∃ c ∈ cs, ∃ l ∈ c, l.source = n) ↔ Relation.TransGen (Linked links) n n
  fresh : cs.Pairwise fun c d => ∀ l ∈ d.head?, ¬ Meets c l.source
  unrepeated : cs.Pairwise fun c d => ¬ c ~r d
  none_iff : cs = [] ↔ Acyclic links

/-- On a cycle links end only where links begin. -/
theorem Cycle.source_of_meets {links c : List Link} (h : Cycle links c) {n : Node}
    (hn : Meets c n) : ∃ l ∈ c, l.source = n := by
  obtain ⟨l, hl, hs | rfl⟩ := hn
  · exact ⟨l, hl, hs⟩
  · obtain ⟨before, after, rfl⟩ := List.append_of_mem hl
    cases after with
    | nil =>
      have hclosed := h.closed
      rw [List.getLast_append_singleton] at hclosed
      exact ⟨_, List.head_mem h.nonempty, hclosed.symm⟩
    | cons m after =>
      have hchain := (List.isChain_append.mp h.chain).2.1
      exact ⟨m, by simp, (List.isChain_cons_cons.mp hchain).1.symm⟩

/-- The cycles that are reported are cycles, they cover all nodes that are on any, and each has a
node that is on none before it. -/
theorem Validation.cycles_reported (links : List Link) : CycleReport links (cycles links) := by
  have hgenuine : ∀ c ∈ cycles links, Cycle links c := by
    intro c hc
    obtain ⟨e, he, d, hd, rfl⟩ := cycleThrough_of_mem_cycles hc
    exact (cycle_of_cycleThrough he hd).2
  have hfresh : (cycles links).Pairwise fun c d => ∀ l ∈ d.head?, ¬ Meets c l.source := by
    apply (cycles_pairwise links).imp_of_mem
    intro c d hc _ hnew l hl hmeets
    obtain ⟨k, hk, hs⟩ := (hgenuine c hc).source_of_meets hmeets
    exact hnew l hl k hk hs
  refine ⟨hgenuine, ?_, hfresh, ?_, cycles_eq_nil_iff⟩
  · intro n
    constructor
    · rintro ⟨c, hc, l, hl, rfl⟩
      exact transGen_of_mem_cycles hc hl
    · exact exists_cycle_of_transGen
  · apply hfresh.imp_of_mem
    intro c d _ hd hnew hrotated
    have hhead := List.head_mem (hgenuine d hd).nonempty
    apply hnew _ (List.head?_eq_some_head _)
    exact ⟨_, hrotated.mem_iff.mpr hhead, .inl rfl⟩

end Workflow
