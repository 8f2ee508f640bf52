import Mathlib.Data.List.Nodup
import Mathlib.Logic.Function.Basic
import Workflow.Digraph.Search
import Workflow.OrderedMap

/-!
# New labels for keys and vertices

When every key of a map gets a label of its own, storing and looking up go on as before under the
new labels, and so do searches when every vertex of a graph does. Labels are compared with each
other and looked at in no other way.
-/

namespace Workflow

set_option autoImplicit false

namespace OrderedMap
variable {κ κ' υ υ' : Type} {f : κ → κ'} {g : υ → υ'}

/-- The map under new keys and with new values, in the same order. -/
def relabel (f : κ → κ') (hf : Function.Injective f) (g : υ → υ') (m : OrderedMap κ υ) :
    OrderedMap κ' υ' :=
  ⟨m.entries.map (Prod.map f g), by
    have h := List.Nodup.map hf m.nodup
    rw [List.map_map] at h ⊢
    exact h⟩

variable (hf : Function.Injective f)

@[simp] theorem entries_relabel (g : υ → υ') (m : OrderedMap κ υ) :
    (m.relabel f hf g).entries = m.entries.map (Prod.map f g) := rfl

@[simp] theorem size_relabel (g : υ → υ') (m : OrderedMap κ υ) :
    (m.relabel f hf g).size = m.size := List.length_map ..

@[simp] theorem keys_relabel (g : υ → υ') (m : OrderedMap κ υ) :
    (m.relabel f hf g).keys = m.keys.map f := by
  rw [keys, keys, entries_relabel, List.map_map, List.map_map]
  rfl

variable [DecidableEq κ] [DecidableEq κ']

@[simp] theorem contains_relabel (g : υ → υ') (m : OrderedMap κ υ) (k : κ) :
    (m.relabel f hf g).contains (f k) = m.contains k := by
  rw [Bool.eq_iff_iff, contains_iff, contains_iff, keys_relabel, List.mem_map_of_injective hf]

@[simp] theorem get?_relabel (g : υ → υ') (m : OrderedMap κ υ) (k : κ) :
    (m.relabel f hf g).get? (f k) = (m.get? k).map g := by
  apply Option.ext
  intro w
  rw [get?_eq_some_iff, entries_relabel, List.mem_map, Option.map_eq_some_iff]
  constructor
  · rintro ⟨⟨j, v⟩, he, heq⟩
    obtain ⟨hj, rfl⟩ := Prod.mk.injEq .. ▸ heq
    obtain rfl := hf hj
    exact ⟨v, get?_eq_some_iff.mpr he, rfl⟩
  · rintro ⟨v, hv, rfl⟩
    exact ⟨(k, v), get?_eq_some_iff.mp hv, rfl⟩

theorem relabel_insert (g : υ → υ') (m : OrderedMap κ υ) (k : κ) (v : υ) :
    (m.insert k v).relabel f hf g = (m.relabel f hf g).insert (f k) (g v) := by
  apply ext
  by_cases h : k ∈ m.keys
  · have h' : f k ∈ (m.relabel f hf g).keys := by
      rw [keys_relabel]
      exact List.mem_map_of_mem h
    rw [entries_relabel, entries_insert_of_mem h, entries_insert_of_mem h', entries_relabel,
      List.map_map, List.map_map]
    apply List.map_congr_left
    intro e _
    by_cases he : e.1 = k
    · simp [he]
    · simp [he, hf.eq_iff]
  · have h' : f k ∉ (m.relabel f hf g).keys := by
      rw [keys_relabel, List.mem_map_of_injective hf]
      exact h
    rw [entries_relabel, entries_insert_of_notMem h, entries_insert_of_notMem h', entries_relabel,
      List.map_append]
    rfl

theorem relabel_alter (g : υ → υ') (m : OrderedMap κ υ) (k : κ) {a : Option υ → υ}
    {b : Option υ' → υ'} (h : ∀ v, g (a v) = b (v.map g)) :
    (m.alter k a).relabel f hf g = (m.relabel f hf g).alter (f k) b := by
  unfold alter
  rw [relabel_insert, h, get?_relabel]

end OrderedMap

namespace Digraph
variable {ν ν' ε ε' : Type}

/-- The second graph is the first under new vertices and edges. -/
structure Relabelled (f : ν → ν') (a : ε → ε') (g : Digraph ν ε) (h : Digraph ν' ε') : Prop where
  injective : Function.Injective f
  edges : h.edges = g.edges.map a
  source : ∀ e, h.source (a e) = f (g.source e)
  target : ∀ e, h.target (a e) = f (g.target e)

def Found.relabel (f : ν → ν') (a : ε → ε') : Found ν ε → Found ν' ε'
  | .path es => .path (es.map a)
  | .nowhere visited => .nowhere (visited.map f)

namespace Relabelled
variable [DecidableEq ν] [DecidableEq ν'] {f : ν → ν'} {a : ε → ε'} {g : Digraph ν ε}
  {h : Digraph ν' ε'}

theorem leaving (r : Relabelled f a g h) (v : ν) : h.leaving (f v) = (g.leaving v).map a := by
  unfold Digraph.leaving
  rw [r.edges, List.filter_map]
  congr 1
  apply List.filter_congr
  intro e _
  simp [r.source, r.injective.eq_iff]

theorem search (r : Relabelled f a g h) (goal : ν) (agenda : List (ν × List ε))
    (visited : List ν) :
    h.search (f goal) (agenda.map (Prod.map f (List.map a))) (visited.map f) =
      (g.search goal agenda visited).relabel f a := by
  fun_induction Digraph.search g goal agenda visited with
  | case1 visited =>
    rw [List.map_nil, Digraph.search]
    rfl
  | case2 visited path agenda =>
    rw [List.map_cons, Prod.map_apply, Digraph.search, if_pos rfl]
    rfl
  | case3 visited v path agenda hv hm ih =>
    rw [List.map_cons, Prod.map_apply, Digraph.search, if_neg (r.injective.ne hv),
      if_pos (List.mem_map_of_mem hm), ih]
  | case4 visited v path agenda hv hm ih =>
    rw [List.map_cons, Prod.map_apply, Digraph.search, if_neg (r.injective.ne hv),
      if_neg (mt (List.mem_map_of_injective r.injective).mp hm), ← ih, r.leaving, List.map_append,
      List.map_map, List.map_map, List.map_cons]
    congr 3
    funext e
    simp [r.target]

theorem cycleThrough (r : Relabelled f a g h) (e : ε) :
    h.cycleThrough (a e) = (g.cycleThrough e).map (List.map a) := by
  have hs := r.search (g.source e) [(g.target e, [e])] []
  unfold Digraph.cycleThrough
  rw [r.source, r.target]
  rw [List.map_cons, List.map_nil, List.map_nil, Prod.map_apply, List.map_cons, List.map_nil] at hs
  rw [hs]
  cases g.search (g.source e) [(g.target e, [e])] [] <;> rfl

theorem cyclesFrom (r : Relabelled f a g h) (es : List ε) (explained : List ν) :
    h.cyclesFrom (es.map a) (explained.map f) = (g.cyclesFrom es explained).map (List.map a) := by
  induction es generalizing explained with
  | nil => rfl
  | cons e es ih =>
    rw [List.map_cons, Digraph.cyclesFrom, Digraph.cyclesFrom, r.source, r.cycleThrough]
    by_cases he : g.source e ∈ explained
    · rw [if_pos (List.mem_map_of_mem he), if_pos he]
      exact ih explained
    · rw [if_neg (mt (List.mem_map_of_injective r.injective).mp he), if_neg he]
      cases g.cycleThrough e with
      | none => exact ih explained
      | some c =>
        have hsources : (c.map a).map h.source ++ explained.map f =
            (c.map g.source ++ explained).map f := by
          rw [List.map_append, List.map_map, List.map_map]
          congr 2
          funext e
          exact r.source e
        simp only [Option.map_some, hsources, ih, List.map_cons]

theorem cycles (r : Relabelled f a g h) : h.cycles = g.cycles.map (List.map a) := by
  unfold Digraph.cycles
  rw [r.edges]
  exact r.cyclesFrom g.edges []

end Relabelled
end Digraph
end Workflow
