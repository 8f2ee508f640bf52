import Workflow.Proofs.Reachability

/-!
# Searches within searches

A search as a recursion: the search of a vertex follows the edges that leave it, one after another,
and searches the target of each before it takes up the next. All these searches share one path and
one list of visited vertices. The recursion has a budget for its depth, and keeps a record of the
vertices that it expands. It expands no vertex twice, so that more depth than there are edges is
never asked for, on whatever graph; and it comes to what the search with an agenda comes to.

A search in vain takes off the path all that it put there, and has visited, besides what was visited
before, exactly the vertices that a walk over such new vertices leads to.
-/

namespace Workflow

set_option autoImplicit false

namespace Digraph

/-- What nested searches share. -/
structure Trek (ν ε : Type) where
  path : List ε
  visited : List ν
  /-- The vertices whose edges were taken up, in turn. -/
  expanded : List ν

namespace Trek
variable {ν ε : Type}

def push (t : Trek ν ε) (e : ε) : Trek ν ε := { t with path := t.path ++ [e] }

def pop (t : Trek ν ε) : Trek ν ε := { t with path := t.path.dropLast }

def expand (t : Trek ν ε) (v : ν) : Trek ν ε :=
  { t with visited := v :: t.visited, expanded := t.expanded ++ [v] }

end Trek

variable {ν ε : Type}

/-- Take up edges in turn, up to the first that leads to the goal or out of the budget. Each is put
on the path, and taken off again when its target was searched in vain. -/
def descendEach (descend : ν → Trek ν ε → Option (Bool × Trek ν ε)) (target : ε → ν) :
    List ε → Trek ν ε → Option (Bool × Trek ν ε)
  | [], t => some (false, t)
  | e :: es, t =>
    match descend (target e) (t.push e) with
    | some (false, u) => descendEach descend target es u.pop
    | ending => ending

/-- Search a vertex, with a budget for the depth of the searches from here on. -/
def descend [DecidableEq ν] (g : Digraph ν ε) (goal : ν) :
    Nat → ν → Trek ν ε → Option (Bool × Trek ν ε)
  | 0, _, _ => none
  | budget + 1, v, t =>
    if v = goal then some (true, t)
    else if v ∈ t.visited then some (false, t)
    else descendEach (descend g goal budget) g.target (g.leaving v) (t.expand v)

/-- Some vertices were expanded in turn from one state to another. None of them was visited, and
they are what the visited vertices grew by. -/
structure Trek.Expands (t u : Trek ν ε) (vs : List ν) : Prop where
  expanded_eq : u.expanded = t.expanded ++ vs
  visited_eq : u.visited = vs.reverse ++ t.visited
  nodup : vs.Nodup
  fresh : ∀ v ∈ vs, v ∉ t.visited

namespace Trek.Expands
variable {t u : Trek ν ε} {v : ν} {vs : List ν}

theorem refl (t : Trek ν ε) : Expands t t [] :=
  ⟨(List.append_nil _).symm, rfl, .nil, by simp⟩

theorem trans {w : Trek ν ε} {ws : List ν} (h : Expands t u vs) (hrest : Expands u w ws) :
    Expands t w (vs ++ ws) := by
  have hnew : ∀ v ∈ ws, v ∉ vs ∧ v ∉ t.visited := by
    intro v hv
    have hfresh := hrest.fresh v hv
    rw [h.visited_eq, List.mem_append, List.mem_reverse, not_or] at hfresh
    exact hfresh
  refine ⟨?_, ?_, ?_, ?_⟩
  · rw [hrest.expanded_eq, h.expanded_eq, List.append_assoc]
  · rw [hrest.visited_eq, h.visited_eq, List.reverse_append, List.append_assoc]
  · apply List.nodup_append.mpr
    refine ⟨h.nodup, hrest.nodup, ?_⟩
    rintro v hv _ hw rfl
    exact (hnew v hw).1 hv
  · intro v hv
    rcases List.mem_append.mp hv with hv | hv
    · exact h.fresh v hv
    · exact (hnew v hv).2

theorem of_expand (hv : v ∉ t.visited) : Expands t (t.expand v) [v] where
  expanded_eq := rfl
  visited_eq := rfl
  nodup := List.nodup_singleton v
  fresh := fun _ hw => List.mem_singleton.mp hw ▸ hv

theorem of_push {e : ε} (h : Expands (t.push e) u vs) : Expands t u vs :=
  ⟨h.expanded_eq, h.visited_eq, h.nodup, h.fresh⟩

theorem pop (h : Expands t u vs) : Expands t u.pop vs :=
  ⟨h.expanded_eq, h.visited_eq, h.nodup, h.fresh⟩

theorem keeps (h : Expands t u vs) : ∀ v ∈ t.visited, v ∈ u.visited := by
  intro v hv
  rw [h.visited_eq]
  exact List.mem_append_right _ hv

end Trek.Expands

/-- A walk on which no vertex, the first and the last included, was visited before. -/
structure FreshWalk (g : Digraph ν ε) (visited : List ν) (v : ν) (es : List ε) (w : ν) : Prop where
  path : g.Path v es w
  fresh : ∀ u ∈ es.map g.source ++ [w], u ∉ visited

namespace FreshWalk
variable {g : Digraph ν ε} {visited : List ν} {v w : ν} {e : ε} {es : List ε}

theorem nil (hv : v ∉ visited) : g.FreshWalk visited v [] v :=
  ⟨.nil v, by simpa using hv⟩

theorem cons (he : e ∈ g.edges) (hs : g.source e ∉ visited)
    (h : g.FreshWalk visited (g.target e) es w) :
    g.FreshWalk visited (g.source e) (e :: es) w := by
  refine ⟨.cons he h.path, ?_⟩
  rw [List.map_cons, List.cons_append]
  exact List.forall_mem_cons.mpr ⟨hs, h.fresh⟩

theorem weaken {u : ν} (h : g.FreshWalk (u :: visited) v es w) : g.FreshWalk visited v es w :=
  ⟨h.path, fun x hx hm => h.fresh x hx (List.mem_cons_of_mem u hm)⟩

end FreshWalk

variable [DecidableEq ν] {g : Digraph ν ε} {goal v : ν}

section Vain
variable {agenda : List (ν × List ε)} {before after : List ν}

/-- A search in vain does not so much as come upon its goal. -/
theorem ne_goal_of_search (h : g.search goal agenda before = .nowhere after) :
    ∀ i ∈ agenda, i.1 ≠ goal := by
  fun_induction search g goal agenda before with
  | case1 before =>
    intro i hi
    cases hi
  | case2 path agenda before => cases h
  | case3 v path agenda before hv hm ih => exact List.forall_mem_cons.mpr ⟨hv, ih h⟩
  | case4 v path agenda before hv hm ih =>
    exact List.forall_mem_cons.mpr ⟨hv, fun i hi => ih h i (List.mem_append_right _ hi)⟩

/-- No edge leads to the goal from a vertex that a search in vain has entered. -/
theorem not_step_goal_of_search (h : g.search goal agenda before = .nowhere after) :
    ∀ w ∈ after, w ∉ before → ¬ g.Step w goal := by
  fun_induction search g goal agenda before with
  | case1 before =>
    cases h
    intro w hw hn
    exact absurd hw hn
  | case2 path agenda before => cases h
  | case3 v path agenda before hv hm ih => exact ih h
  | case4 v path agenda before hv hm ih =>
    intro w hw hn
    by_cases hvw : w = v
    · subst hvw
      rintro ⟨e, he, hs, ht⟩
      have hitem := List.mem_map_of_mem (f := fun e => (g.target e, path ++ [e]))
        (mem_leaving.mpr ⟨he, hs⟩)
      exact ne_goal_of_search h _ (List.mem_append_left _ hitem) ht
    · apply ih h w hw
      rw [List.mem_cons, not_or]
      exact ⟨hvw, hn⟩

/-- What a search in vain has entered, it has entered by a walk from its agenda. -/
theorem freshWalk_of_search (h : g.search goal agenda before = .nowhere after) :
    ∀ w ∈ after, w ∈ before ∨ ∃ i ∈ agenda, ∃ es, g.FreshWalk before i.1 es w := by
  fun_induction search g goal agenda before with
  | case1 before =>
    cases h
    intro w hw
    exact .inl hw
  | case2 path agenda before => cases h
  | case3 v path agenda before hv hm ih =>
    intro w hw
    rcases ih h w hw with hw | ⟨i, hi, hwalk⟩
    · exact .inl hw
    · exact .inr ⟨i, List.mem_cons_of_mem _ hi, hwalk⟩
  | case4 v path agenda before hv hm ih =>
    intro w hw
    rcases ih h w hw with hw | ⟨i, hi, es, hwalk⟩
    · rcases List.mem_cons.mp hw with rfl | hw
      · exact .inr ⟨_, List.mem_cons_self, [], .nil hm⟩
      · exact .inl hw
    · rcases List.mem_append.mp hi with hi | hi
      · -- the walk from an edge of the vertex entered now begins at that vertex
        obtain ⟨e, he, rfl⟩ := List.mem_map.mp hi
        obtain ⟨hedge, rfl⟩ := mem_leaving.mp he
        exact .inr ⟨_, List.mem_cons_self, e :: es, hwalk.weaken.cons hedge hm⟩
      · exact .inr ⟨i, List.mem_cons_of_mem _ hi, es, hwalk.weaken⟩

omit [DecidableEq ν] in
/-- A walk over new vertices does not leave what a search in vain has entered. -/
theorem Exhausted.mem_of_freshWalk (h : g.Exhausted goal agenda before after) {w : ν} {es : List ε}
    (hwalk : g.FreshWalk before v es w) (hv : v ∈ after) : w ∈ after := by
  obtain ⟨hpath, hfresh⟩ := hwalk
  induction hpath with
  | nil v => exact hv
  | @cons e es w he _ ih =>
    rw [List.map_cons, List.cons_append] at hfresh
    obtain ⟨hsource, hrest⟩ := List.forall_mem_cons.mp hfresh
    exact ih (h.closed _ hv hsource _ ⟨e, he, rfl, rfl⟩) hrest

/-- A search in vain from one vertex adds to the visited vertices those that walks over new vertices
lead to. -/
theorem mem_of_search_iff {path : List ε} (h : g.search goal [(v, path)] before = .nowhere after)
    (w : ν) : w ∈ after ↔ w ∈ before ∨ ∃ es, g.FreshWalk before v es w := by
  have hx := exhausted_of_search h
  constructor
  · intro hw
    rcases freshWalk_of_search h w hw with hw | ⟨i, hi, hwalk⟩
    · exact .inl hw
    · obtain rfl := List.mem_singleton.mp hi
      exact .inr hwalk
  · rintro (hw | ⟨es, hwalk⟩)
    · exact hx.keeps w hw
    · exact hx.mem_of_freshWalk hwalk (hx.enters _ List.mem_cons_self)

end Vain

/-- The agenda of the edges that are still to be taken up. -/
def ahead (g : Digraph ν ε) (t : Trek ν ε) (es : List ε) : List (ν × List ε) :=
  es.map fun e => (g.target e, t.path ++ [e])

/-- What nested searches come to: to what the search of an agenda comes to, and in vain with the
path that they began with. -/
structure Descended (g : Digraph ν ε) (goal : ν) (agenda : List (ν × List ε)) (t : Trek ν ε)
    (found : Bool) (u : Trek ν ε) : Prop where
  search_eq : g.search goal agenda t.visited =
    if found then .path u.path else .nowhere u.visited
  path_eq : found = false → u.path = t.path
  expands : ∃ vs, t.Expands u vs

namespace Descended
variable {t u w : Trek ν ε} {e : ε} {es : List ε} {found : Bool}

theorem nil (g : Digraph ν ε) (goal : ν) (t : Trek ν ε) : g.Descended goal [] t false t where
  search_eq := by rw [search]; rfl
  path_eq := fun _ => rfl
  expands := ⟨[], .refl t⟩

theorem cons_found (h : g.Descended goal [(g.target e, t.path ++ [e])] (t.push e) true u) :
    g.Descended goal (g.ahead t (e :: es)) t true u where
  search_eq := by
    have hsearch : g.search goal [(g.target e, t.path ++ [e])] t.visited = .path u.path :=
      h.search_eq
    rw [ahead, List.map_cons, ← List.singleton_append, search_append, hsearch]
    rfl
  path_eq := by
    intro hfound
    cases hfound
  expands := h.expands.imp fun _ => .of_push

theorem pop_path (h : g.Descended goal [(g.target e, t.path ++ [e])] (t.push e) false u) :
    u.pop.path = t.path := by
  have hpath : u.path = t.path ++ [e] := h.path_eq rfl
  rw [Trek.pop, hpath, List.dropLast_concat]

theorem cons (h : g.Descended goal [(g.target e, t.path ++ [e])] (t.push e) false u)
    (hrest : g.Descended goal (g.ahead u.pop es) u.pop found w) :
    g.Descended goal (g.ahead t (e :: es)) t found w where
  search_eq := by
    have hsearch : g.search goal [(g.target e, t.path ++ [e])] t.visited = .nowhere u.visited :=
      h.search_eq
    have hahead : g.ahead u.pop es = es.map fun e => (g.target e, t.path ++ [e]) := by
      rw [ahead, h.pop_path]
    rw [ahead, List.map_cons, ← List.singleton_append, search_append, hsearch, ← hahead]
    exact hrest.search_eq
  path_eq := fun hfound => (hrest.path_eq hfound).trans h.pop_path
  expands := by
    obtain ⟨vs, hvs⟩ := h.expands
    obtain ⟨ws, hws⟩ := hrest.expands
    exact ⟨vs ++ ws, hvs.of_push.pop.trans hws⟩

/-- Edges taken up in turn come to what each comes to, if each does so whatever was visited in the
meantime. -/
theorem each {descend : ν → Trek ν ε → Option (Bool × Trek ν ε)} (t : Trek ν ε)
    (h : ∀ e ∈ es, ∀ u : Trek ν ε, (∀ v ∈ t.visited, v ∈ u.visited) → ∃ found w,
      descend (g.target e) u = some (found, w) ∧
        g.Descended goal [(g.target e, u.path)] u found w) :
    ∃ found w, descendEach descend g.target es t = some (found, w) ∧
      g.Descended goal (g.ahead t es) t found w := by
  induction es generalizing t with
  | nil => exact ⟨false, t, rfl, .nil g goal t⟩
  | cons e es ih =>
    obtain ⟨found, u, hcall, hu⟩ := h e List.mem_cons_self (t.push e) fun v hv => hv
    cases found with
    | true =>
      refine ⟨true, u, ?_, hu.cons_found⟩
      rw [descendEach, hcall]
    | false =>
      obtain ⟨vs, hvs⟩ := hu.expands
      obtain ⟨found, w, heach, hw⟩ := ih u.pop fun a ha x hx =>
        h a (List.mem_cons_of_mem e ha) x fun v hv => hx v (hvs.keeps v hv)
      refine ⟨found, w, ?_, hu.cons hw⟩
      rw [descendEach, hcall]
      exact heach

end Descended

theorem length_unexplored_le (g : Digraph ν ε) {as bs : List ν} (h : ∀ v ∈ as, v ∈ bs) :
    (g.unexplored bs).length ≤ (g.unexplored as).length := by
  apply List.Sublist.length_le
  apply List.monotone_filter_right
  intro e he
  simp only [decide_eq_true_eq] at he ⊢
  exact fun hm => he (h _ hm)

/-- Each search within a search has fewer edges left unexplored, so that the budget is not
exhausted. -/
theorem descend_descended (g : Digraph ν ε) (goal : ν) (budget : Nat) (v : ν) (t : Trek ν ε)
    (hbudget : (g.unexplored t.visited).length < budget) :
    ∃ found u, g.descend goal budget v t = some (found, u) ∧
      g.Descended goal [(v, t.path)] t found u := by
  induction budget generalizing v t with
  | zero => exact absurd hbudget (Nat.not_lt_zero _)
  | succ budget ih =>
    rw [descend]
    by_cases hv : v = goal
    · refine ⟨true, t, if_pos hv, ?_, ?_, [], .refl t⟩
      · rw [search, if_pos hv]
        rfl
      · intro hfound
        cases hfound
    rw [if_neg hv]
    by_cases hm : v ∈ t.visited
    · refine ⟨false, t, if_pos hm, ?_, fun _ => rfl, [], .refl t⟩
      rw [search, if_neg hv, if_pos hm, search]
      rfl
    rw [if_neg hm]
    have hcalls : ∀ e ∈ g.leaving v, ∀ u : Trek ν ε, (∀ w ∈ v :: t.visited, w ∈ u.visited) →
        ∃ found w, g.descend goal budget (g.target e) u = some (found, w) ∧
          g.Descended goal [(g.target e, u.path)] u found w := by
      intro e he u hu
      apply ih
      have hless := length_unexplored_cons g hm
      have hleaving := List.length_pos_of_mem he
      have hle := g.length_unexplored_le hu
      omega
    obtain ⟨found, u, heach, h⟩ := Descended.each (t.expand v) hcalls
    refine ⟨found, u, heach, ?_, h.path_eq, ?_⟩
    · rw [search, if_neg hv, if_neg hm, List.append_nil]
      exact h.search_eq
    · obtain ⟨vs, hvs⟩ := h.expands
      exact ⟨v :: vs, (Trek.Expands.of_expand hm).trans hvs⟩

-- the edge to the dead end is taken off the path, and the dead end stays visited
example : descend ⟨[(0, 1), (0, 2)], Prod.fst, Prod.snd⟩ 2 3 0 ⟨[], [], []⟩ =
    some (true, ⟨[(0, 2)], [1, 0], [0, 1]⟩) := rfl

omit [DecidableEq ν] in
theorem descendEach_mono {descend more : ν → Trek ν ε → Option (Bool × Trek ν ε)} {target : ε → ν}
    (hmore : ∀ v t x, descend v t = some x → more v t = some x) {es : List ε} {t : Trek ν ε}
    {x : Bool × Trek ν ε} (h : descendEach descend target es t = some x) :
    descendEach more target es t = some x := by
  induction es generalizing t with
  | nil => exact h
  | cons e es ih =>
    rw [descendEach] at h ⊢
    cases hcall : descend (target e) (t.push e) with
    | none =>
      rw [hcall] at h
      cases h
    | some y =>
      rw [hcall] at h
      rw [hmore _ _ _ hcall]
      obtain ⟨found, u⟩ := y
      cases found with
      | true => exact h
      | false => exact ih h

/-- A larger budget changes nothing about a search that comes to an end. -/
theorem descend_mono {budget more : Nat} (hle : budget ≤ more) {t : Trek ν ε}
    {x : Bool × Trek ν ε} (h : g.descend goal budget v t = some x) :
    g.descend goal more v t = some x := by
  induction budget generalizing more v t x with
  | zero =>
    rw [descend] at h
    cases h
  | succ budget ih =>
    obtain ⟨more, rfl⟩ : ∃ k, more = k + 1 := ⟨more - 1, by omega⟩
    rw [descend] at h ⊢
    by_cases hv : v = goal
    · rw [if_pos hv] at h ⊢
      exact h
    rw [if_neg hv] at h ⊢
    by_cases hm : v ∈ t.visited
    · rw [if_pos hm] at h ⊢
      exact h
    rw [if_neg hm] at h ⊢
    exact descendEach_mono (fun _ _ _ => ih (Nat.le_of_succ_le_succ hle)) h

end Digraph

namespace Validation

/-- What is left when a search by recursion for a way from one node to another has ended. -/
structure SearchedFrom (links : List Link) (goal n : Node) (t : Digraph.Trek Node (Link × Nat))
    (found : Bool) (u : Digraph.Trek Node (Link × Nat)) : Prop where
  /-- It comes to what the search for cycles comes to from there. -/
  search_eq : (linkGraph links).search goal [(n, t.path)] t.visited =
    if found then .path u.path else .nowhere u.visited
  expands : ∃ ns, t.Expands u ns
  path_eq : found = false → u.path = t.path
  mem_visited_iff : found = false → ∀ m, m ∈ u.visited ↔
    m ∈ t.visited ∨ ∃ es, (linkGraph links).FreshWalk t.visited n es m
  not_linked : found = false → ∀ m ∈ u.visited, m ∉ t.visited → ¬ Linked links m goal
  path_extends : found = true → ∃ es, u.path = t.path ++ es ∧ (linkGraph links).Path n es goal

/-- A search by recursion comes to one and the same end with any budget larger than the number of
links, wherever it begins and whatever path and visited nodes it begins with. -/
theorem descend_ends (links : List Link) (goal n : Node) (t : Digraph.Trek Node (Link × Nat)) :
    ∃ found u,
      (∀ k, (linkGraph links).descend goal (links.length + 1 + k) n t = some (found, u)) ∧
        SearchedFrom links goal n t found u := by
  have hbudget : ((linkGraph links).unexplored t.visited).length < links.length + 1 := by
    apply Nat.lt_succ_of_le
    calc ((linkGraph links).unexplored t.visited).length
        ≤ (linkGraph links).edges.length := List.length_filter_le _ _
      _ = links.length := List.length_zipIdx
  obtain ⟨found, u, hend, h⟩ := (linkGraph links).descend_descended goal _ n t hbudget
  refine ⟨found, u, fun k => Digraph.descend_mono (Nat.le_add_right _ k) hend, h.search_eq,
    h.expands, h.path_eq, ?_, ?_, ?_⟩
  · rintro rfl
    exact Digraph.mem_of_search_iff h.search_eq
  · rintro rfl m hm hn hlinked
    exact Digraph.not_step_goal_of_search h.search_eq m hm hn (step_linkGraph_iff.mpr hlinked)
  · rintro rfl
    obtain ⟨i, hi, es, hpath, hwalk⟩ := Digraph.path_of_search h.search_eq
    obtain rfl := List.mem_singleton.mp hi
    exact ⟨es, hpath, hwalk⟩

end Validation
end Workflow
