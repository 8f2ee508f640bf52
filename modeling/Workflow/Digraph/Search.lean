/-!
Depth-first search in a directed graph given by a list of edges. The search looks for a way to a
goal, trying edges in the order of the list and entering no vertex twice; it either finds a path or
gives the vertices that it has entered. It ends because every edge leaves the pool of edges with an
unvisited source at most once.
-/

namespace Workflow

set_option autoImplicit false

structure Digraph (ν ε : Type) where
  edges : List ε
  source : ε → ν
  target : ε → ν

namespace Digraph
variable {ν ε : Type} [DecidableEq ν]

def leaving (g : Digraph ν ε) (v : ν) : List ε := g.edges.filter fun e => g.source e = v

def unexplored (g : Digraph ν ε) (visited : List ν) : List ε :=
  g.edges.filter fun e => g.source e ∉ visited

theorem length_unexplored_cons (g : Digraph ν ε) {visited : List ν} {v : ν} (h : v ∉ visited) :
    (g.unexplored (v :: visited)).length + (g.leaving v).length =
      (g.unexplored visited).length := by
  unfold unexplored leaving
  induction g.edges with
  | nil => rfl
  | cons e es ih =>
    simp only [List.mem_cons, not_or, Bool.decide_and, decide_not, List.filter_cons] at ih ⊢
    by_cases hv : g.source e = v
    · simp [hv, h]
      omega
    · by_cases hm : g.source e ∈ visited
      · simpa [hv, hm] using ih
      · simp [hv, hm]
        omega

/-- How a search ends: with a path to the goal, or with the vertices visited in vain. -/
inductive Found (ν ε : Type) where
  | path (edges : List ε)
  | nowhere (visited : List ν)
deriving DecidableEq, Repr

/-- Search from the vertices of an agenda, each with the path that led to it. -/
def search (g : Digraph ν ε) (goal : ν) : List (ν × List ε) → List ν → Found ν ε
  | [], visited => .nowhere visited
  | (v, path) :: agenda, visited =>
    if v = goal then .path path
    else if v ∈ visited then search g goal agenda visited
    else
      search g goal ((g.leaving v).map (fun e => (g.target e, path ++ [e])) ++ agenda)
        (v :: visited)
termination_by agenda visited => agenda.length + (g.unexplored visited).length
decreasing_by
  · simp only [List.length_cons]
    omega
  · rename_i h
    have := length_unexplored_cons g h
    simp only [List.length_append, List.length_map, List.length_cons]
    omega

/-- What is left of an agenda is searched when its first part led nowhere. -/
theorem search_append (g : Digraph ν ε) (goal : ν) (as bs : List (ν × List ε))
    (visited : List ν) :
    g.search goal (as ++ bs) visited =
      match g.search goal as visited with
      | .path p => .path p
      | .nowhere visited => g.search goal bs visited := by
  fun_induction search g goal as visited with
  | case1 visited => rfl
  | case2 visited path agenda => rw [List.cons_append, search, if_pos rfl]
  | case3 visited v path agenda hv hm ih =>
    rw [List.cons_append, search, if_neg hv, if_pos hm, ih]
  | case4 visited v path agenda hv hm ih =>
    rw [List.cons_append, search, if_neg hv, if_neg hm, ← List.append_assoc, ih]

/-- Look from the target of an edge for a way back to its source. -/
def cycleThrough (g : Digraph ν ε) (e : ε) : Option (List ε) :=
  match g.search (g.source e) [(g.target e, [e])] [] with
  | .path p => some p
  | .nowhere _ => none

/-- The cycles found from the given edges on. An edge is passed over when an earlier cycle leaves
its source. -/
def cyclesFrom (g : Digraph ν ε) : List ε → List ν → List (List ε)
  | [], _ => []
  | e :: es, explained =>
    if g.source e ∈ explained then cyclesFrom g es explained
    else
      match g.cycleThrough e with
      | some c => c :: cyclesFrom g es (c.map g.source ++ explained)
      | none => cyclesFrom g es explained

def cycles (g : Digraph ν ε) : List (List ε) := g.cyclesFrom g.edges []

end Digraph
end Workflow
