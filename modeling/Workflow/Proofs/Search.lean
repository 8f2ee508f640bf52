import Mathlib.Logic.Relation
import Workflow.Digraph.Search

/-!
# What a search tells

A search that does not reach its goal has entered everything that can be reached: the vertices that
it gives are closed under the edges that leave them. So the goal cannot be reached at all. A search
that reaches its goal gives a path to it. Hence cycles are found exactly in a graph that has some.
-/

namespace Workflow.Digraph

set_option autoImplicit false

variable {ν ε : Type} [DecidableEq ν]

/-- An edge leads from the first vertex to the second. -/
def Step (g : Digraph ν ε) (v w : ν) : Prop := ∃ e ∈ g.edges, g.source e = v ∧ g.target e = w

theorem mem_leaving {g : Digraph ν ε} {v : ν} {e : ε} :
    e ∈ g.leaving v ↔ e ∈ g.edges ∧ g.source e = v := by
  simp [leaving]

/-- What a search that ends in vain has visited: all it was asked for, never its goal, and with
each new vertex all that its edges lead to. -/
structure Exhausted (g : Digraph ν ε) (goal : ν) (agenda : List (ν × List ε))
    (before after : List ν) : Prop where
  keeps : ∀ v ∈ before, v ∈ after
  enters : ∀ i ∈ agenda, i.1 ∈ after
  misses : goal ∉ before → goal ∉ after
  closed : ∀ v ∈ after, v ∉ before → ∀ w, g.Step v w → w ∈ after

theorem exhausted_of_search {g : Digraph ν ε} {goal : ν} {agenda : List (ν × List ε)}
    {before after : List ν} (h : g.search goal agenda before = .nowhere after) :
    g.Exhausted goal agenda before after := by
  fun_induction search g goal agenda before with
  | case1 before =>
    cases h
    refine ⟨fun _ hv => hv, ?_, fun hg => hg, ?_⟩
    · intro i hi
      cases hi
    · intro v hv hn
      exact absurd hv hn
  | case2 path agenda before => cases h
  | case3 v path agenda before hv hm ih =>
    have hx := ih h
    refine ⟨hx.keeps, ?_, hx.misses, hx.closed⟩
    intro i hi
    rcases List.mem_cons.mp hi with rfl | hi
    · exact hx.keeps v hm
    · exact hx.enters i hi
  | case4 v path agenda before hv hm ih =>
    have hx := ih h
    refine ⟨?_, ?_, ?_, ?_⟩
    · intro w hw
      exact hx.keeps w (List.mem_cons_of_mem v hw)
    · intro i hi
      rcases List.mem_cons.mp hi with rfl | hi
      · exact hx.keeps v List.mem_cons_self
      · exact hx.enters i (List.mem_append_right _ hi)
    · intro hg
      apply hx.misses
      rw [List.mem_cons, not_or]
      exact ⟨fun he => hv he.symm, hg⟩
    · intro w hw hnew x hwx
      by_cases hvw : w = v
      · -- the edges of the vertex entered last are still on the agenda
        subst hvw
        obtain ⟨e, he, hs, ht⟩ := hwx
        have hitem := hx.enters (g.target e, path ++ [e]) (List.mem_append_left _
          (List.mem_map_of_mem (mem_leaving.mpr ⟨he, hs⟩)))
        exact ht ▸ hitem
      · apply hx.closed w hw _ x hwx
        rw [List.mem_cons, not_or]
        exact ⟨hvw, hnew⟩

/-- What a search from one vertex does not find cannot be reached from there. -/
theorem not_reaches_of_search {g : Digraph ν ε} {goal v : ν} {path : List ε} {after : List ν}
    (h : g.search goal [(v, path)] [] = .nowhere after) :
    ¬ Relation.ReflTransGen g.Step v goal := by
  have hx := exhausted_of_search h
  intro hr
  have hall : ∀ w, Relation.ReflTransGen g.Step v w → w ∈ after := by
    intro w hw
    induction hw with
    | refl => exact hx.enters _ List.mem_cons_self
    | tail _ hstep ih => exact hx.closed _ ih List.not_mem_nil _ hstep
  exact hx.misses List.not_mem_nil (hall _ hr)

/-- No way leads from the target of an edge back to its source when none is found. -/
theorem not_reaches_of_cycleThrough_eq_none {g : Digraph ν ε} {e : ε}
    (h : g.cycleThrough e = none) :
    ¬ Relation.ReflTransGen g.Step (g.target e) (g.source e) := by
  unfold cycleThrough at h
  split at h
  · cases h
  · rename_i after hs
    exact not_reaches_of_search hs

/-- The edges lead, one after another, from the first vertex to the second. -/
inductive Path (g : Digraph ν ε) : ν → List ε → ν → Prop where
  | nil (v : ν) : Path g v [] v
  | cons {e : ε} {es : List ε} {w : ν} (he : e ∈ g.edges) (rest : Path g (g.target e) es w) :
      Path g (g.source e) (e :: es) w

omit [DecidableEq ν] in
theorem Path.reaches {g : Digraph ν ε} {v w : ν} {es : List ε} (h : g.Path v es w) :
    Relation.ReflTransGen g.Step v w := by
  induction h with
  | nil v => exact .refl
  | cons he _ ih => exact .head ⟨_, he, rfl, rfl⟩ ih

/-- A search goes on from some item of its agenda, along a path from there to its goal. -/
theorem path_of_search {g : Digraph ν ε} {goal : ν} {agenda : List (ν × List ε)}
    {visited : List ν} {found : List ε} (h : g.search goal agenda visited = .path found) :
    ∃ i ∈ agenda, ∃ es, found = i.2 ++ es ∧ g.Path i.1 es goal := by
  fun_induction search g goal agenda visited with
  | case1 visited => cases h
  | case2 visited path agenda =>
    cases h
    exact ⟨(goal, found), List.mem_cons_self, [], (List.append_nil _).symm, .nil goal⟩
  | case3 visited v path agenda hv hm ih =>
    obtain ⟨i, hi, hpath⟩ := ih h
    exact ⟨i, List.mem_cons_of_mem _ hi, hpath⟩
  | case4 visited v path agenda hv hm ih =>
    obtain ⟨i, hi, es, hfound, hpath⟩ := ih h
    rcases List.mem_append.mp hi with hi | hi
    · obtain ⟨e, he, rfl⟩ := List.mem_map.mp hi
      obtain ⟨hedge, rfl⟩ := mem_leaving.mp he
      refine ⟨_, List.mem_cons_self, e :: es, ?_, .cons hedge hpath⟩
      rw [hfound, List.append_assoc, List.singleton_append]
    · exact ⟨i, List.mem_cons_of_mem _ hi, es, hfound, hpath⟩

/-- Searching decides what can be reached. -/
instance (g : Digraph ν ε) (v w : ν) : Decidable (Relation.ReflTransGen g.Step v w) :=
  match h : g.search w [(v, [])] [] with
  | .path _ => isTrue <| by
    obtain ⟨i, hi, _, _, hpath⟩ := path_of_search h
    obtain rfl := List.mem_singleton.mp hi
    exact hpath.reaches
  | .nowhere _ => isFalse (not_reaches_of_search h)

/-- What is found through an edge is the edge and a path from its target back to its source. -/
theorem path_of_cycleThrough_eq_some {g : Digraph ν ε} {e : ε} {c : List ε}
    (h : g.cycleThrough e = some c) :
    ∃ es, c = e :: es ∧ g.Path (g.target e) es (g.source e) := by
  unfold cycleThrough at h
  split at h
  · rename_i found hs
    cases h
    obtain ⟨i, hi, es, hfound, hpath⟩ := path_of_search hs
    obtain rfl := List.mem_singleton.mp hi
    exact ⟨es, hfound, hpath⟩
  · cases h

section Cycles
variable {g : Digraph ν ε} {e : ε} {es : List ε} {explained : List ν}

/-- What a run over the edges comes to at the next one: it is passed over, its source explained or
nothing found, or else a cycle is reported, which begins with it. -/
theorem cyclesFrom_cons_cases (g : Digraph ν ε) (e : ε) (es : List ε) (explained : List ν) :
    ((g.source e ∈ explained ∨ g.cycleThrough e = none) ∧
        g.cyclesFrom (e :: es) explained = g.cyclesFrom es explained) ∨
      (g.source e ∉ explained ∧ ∃ c, g.cycleThrough e = some c ∧ c.head? = some e ∧
        g.cyclesFrom (e :: es) explained = c :: g.cyclesFrom es (c.map g.source ++ explained)) := by
  rw [cyclesFrom]
  by_cases he : g.source e ∈ explained
  · exact .inl ⟨.inl he, if_pos he⟩
  · rw [if_neg he]
    cases hc : g.cycleThrough e with
    | none => exact .inl ⟨.inr rfl, rfl⟩
    | some c =>
      obtain ⟨rest, rfl, _⟩ := path_of_cycleThrough_eq_some hc
      exact .inr ⟨he, _, rfl, rfl, rfl⟩

/-- Every cycle was found through an edge, and begins with it. -/
theorem cycleThrough_of_mem_cyclesFrom {c : List ε} (h : c ∈ g.cyclesFrom es explained) :
    ∃ e ∈ es, c.head? = some e ∧ g.source e ∉ explained ∧ g.cycleThrough e = some c := by
  induction es generalizing explained with
  | nil => cases h
  | cons e es ih =>
    rcases cyclesFrom_cons_cases g e es explained with ⟨_, heq⟩ | ⟨he, d, hd, hhead, heq⟩
    · rw [heq] at h
      obtain ⟨a, ha, hc⟩ := ih h
      exact ⟨a, List.mem_cons_of_mem e ha, hc⟩
    · rw [heq] at h
      rcases List.mem_cons.mp h with rfl | h
      · exact ⟨e, List.mem_cons_self, hhead, he, hd⟩
      · obtain ⟨a, ha, hfirst, hnew, hc⟩ := ih h
        refine ⟨a, List.mem_cons_of_mem e ha, hfirst, ?_, hc⟩
        exact fun hm => hnew (List.mem_append_right _ hm)

/-- An edge whose target leads back to its source has that source explained, at the latest by the
cycle that is found through it. -/
theorem explained_of_reaches (he : e ∈ es)
    (hback : Relation.ReflTransGen g.Step (g.target e) (g.source e)) :
    g.source e ∈ explained ∨ ∃ c ∈ g.cyclesFrom es explained, ∃ a ∈ c, g.source a = g.source e := by
  induction es generalizing explained with
  | nil => cases he
  | cons b es ih =>
    rcases cyclesFrom_cons_cases g b es explained with ⟨hpass, heq⟩ | ⟨_, d, _, hhead, heq⟩
    · rw [heq]
      rcases List.mem_cons.mp he with rfl | he
      · rcases hpass with hm | hnone
        · exact .inl hm
        · exact absurd hback (not_reaches_of_cycleThrough_eq_none hnone)
      · exact ih he
    · rw [heq]
      rcases List.mem_cons.mp he with rfl | he
      · exact .inr ⟨d, List.mem_cons_self, e, List.mem_of_mem_head? hhead, rfl⟩
      · rcases @ih (d.map g.source ++ explained) he with hm | ⟨c, hc, hon⟩
        · rcases List.mem_append.mp hm with hm | hm
          · exact .inr ⟨d, List.mem_cons_self, List.mem_map.mp hm⟩
          · exact .inl hm
        · exact .inr ⟨c, List.mem_cons_of_mem d hc, hon⟩

/-- Cycles are found in a graph exactly when it has some. -/
theorem cycles_eq_nil_iff : g.cycles = [] ↔ ∀ v, ¬ Relation.TransGen g.Step v v := by
  constructor
  · intro h v hc
    obtain ⟨w, ⟨e, he, rfl, rfl⟩, hback⟩ := Relation.TransGen.head'_iff.mp hc
    obtain ⟨c, hfound, _⟩ := (explained_of_reaches he hback).resolve_left List.not_mem_nil
    exact List.ne_nil_of_mem hfound h
  · intro h
    apply List.eq_nil_iff_forall_not_mem.mpr
    intro c hc
    obtain ⟨e, he, _, _, hfound⟩ := cycleThrough_of_mem_cyclesFrom hc
    obtain ⟨es, _, hpath⟩ := path_of_cycleThrough_eq_some hfound
    exact h (g.source e) (.head' ⟨e, he, rfl, rfl⟩ hpath.reaches)

end Cycles

end Workflow.Digraph
