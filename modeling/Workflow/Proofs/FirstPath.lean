import Workflow.Proofs.Reachability

/-!
# The first path back

A search enters no vertex twice, not even one that it has left again without having found its goal.
Nothing is lost by that. Whatever leads from a vertex that was left to the goal goes through a
vertex that the search has entered and not yet left; so no path that enters each vertex once begins
there. The search gives the same path as one that tries all of those paths in turn, and this is the
first of them in the order of the positions of their edges.
-/

namespace Workflow

set_option autoImplicit false

namespace Digraph
variable {ν ε : Type}

/-- A path on which no vertex is met twice. -/
def SimplePath (g : Digraph ν ε) (v : ν) (es : List ε) (w : ν) : Prop :=
  g.Path v es w ∧ (es.map g.source ++ [w]).Nodup

/-- No edge of the path leaves a vertex of the trail. -/
def Avoids (g : Digraph ν ε) (trail : List ν) (es : List ε) : Prop :=
  ∀ e ∈ es, g.source e ∉ trail

/-- What a search has left is sealed off: the goal was not found, and the edges from a vertex that
was entered and left again lead to vertices that were entered. -/
structure Sealed (g : Digraph ν ε) (goal : ν) (trail visited : List ν) : Prop where
  missed : goal ∉ visited
  entered : ∀ v ∈ trail, v ∈ visited
  closed : ∀ v ∈ visited, v ∉ trail → ∀ w, g.Step v w → w ∈ visited

section Paths
variable {g : Digraph ν ε} {goal v : ν} {trail visited : List ν} {es : List ε}

theorem simplePath_nil_iff : g.SimplePath v [] goal ↔ v = goal := by
  constructor
  · rintro ⟨hpath, _⟩
    cases hpath
    rfl
  · rintro rfl
    exact ⟨.nil v, List.nodup_singleton v⟩

theorem avoids_cons_iff : g.Avoids (v :: trail) es ↔ g.Avoids [v] es ∧ g.Avoids trail es := by
  unfold Avoids
  simp only [List.mem_cons, List.not_mem_nil, or_false, not_or]
  exact ⟨fun h => ⟨fun a ha => (h a ha).1, fun a ha => (h a ha).2⟩,
    fun h a ha => ⟨h.1 a ha, h.2 a ha⟩⟩

namespace Sealed

/-- From a vertex that was entered, whatever leads to the goal goes through the trail. -/
theorem not_avoids (h : g.Sealed goal trail visited) (hv : v ∈ visited) (hpath : g.Path v es goal) :
    ¬ g.Avoids trail es := by
  induction hpath with
  | nil v => exact absurd hv h.missed
  | @cons e es w he _ ih =>
    intro havoid
    apply ih h (h.closed _ hv (havoid e List.mem_cons_self) _ ⟨e, he, rfl, rfl⟩)
    exact fun a ha => havoid a (List.mem_cons_of_mem e ha)

theorem enter (h : g.Sealed goal trail visited) (hv : v ≠ goal) :
    g.Sealed goal (v :: trail) (v :: visited) := by
  refine ⟨?_, ?_, ?_⟩
  · rw [List.mem_cons, not_or]
    exact ⟨hv.symm, h.missed⟩
  · intro w hw
    rcases List.mem_cons.mp hw with rfl | hw
    · exact List.mem_cons_self
    · exact List.mem_cons_of_mem v (h.entered w hw)
  · intro w hw hoff x hstep
    rw [List.mem_cons, not_or] at hoff
    have hw := (List.mem_cons.mp hw).resolve_left hoff.1
    exact List.mem_cons_of_mem v (h.closed w hw hoff.2 x hstep)

theorem leave (h : g.Sealed goal (v :: trail) visited) (hv : ∀ w, g.Step v w → w ∈ visited) :
    g.Sealed goal trail visited := by
  refine ⟨h.missed, fun w hw => h.entered w (List.mem_cons_of_mem v hw), ?_⟩
  intro w hw hoff x hstep
  by_cases he : w = v
  · subst he
    exact hv x hstep
  · exact h.closed w hw (by simp [he, hoff]) x hstep

end Sealed
end Paths

variable [DecidableEq ν]

/-- Try the paths to the goal in turn, edge by edge in the order of the list. Only a vertex of the
path so far, its trail, is not entered again. -/
def firstPath (g : Digraph ν ε) (goal v : ν) (trail : List ν) : Option (List ε) :=
  if v = goal then some []
  else if _h : v ∈ trail then none
  else
    (g.leaving v).attach.findSome? fun e =>
      (firstPath g goal (g.target e.val) (v :: trail)).map fun es => e.val :: es
termination_by (g.unexplored trail).length
decreasing_by
  have := length_unexplored_cons g _h
  have := List.length_pos_of_mem e.property
  omega

section FirstPath
variable {g : Digraph ν ε} {goal v : ν} {trail visited : List ν} {e : ε} {es ws : List ε}

theorem firstPath_goal (g : Digraph ν ε) (goal : ν) (trail : List ν) :
    g.firstPath goal goal trail = some [] := by
  rw [firstPath, if_pos rfl]

theorem firstPath_of_mem (hv : v ≠ goal) (h : v ∈ trail) : g.firstPath goal v trail = none := by
  rw [firstPath, if_neg hv, dif_pos h]

theorem firstPath_of_notMem (hv : v ≠ goal) (h : v ∉ trail) :
    g.firstPath goal v trail = (g.leaving v).findSome? fun e =>
      (g.firstPath goal (g.target e) (v :: trail)).map fun es => e :: es := by
  rw [firstPath, if_neg hv, dif_neg h]
  conv_rhs => rw [← List.attach_map_subtype_val (g.leaving v), List.findSome?_map]
  rfl

/-- A path that is found goes on by the first edge from which any is found. -/
theorem firstPath_eq_some_iff (hv : v ≠ goal) (h : v ∉ trail) :
    g.firstPath goal v trail = some es ↔ ∃ before e after rest,
      g.leaving v = before ++ e :: after ∧ es = e :: rest ∧
        g.firstPath goal (g.target e) (v :: trail) = some rest ∧
          ∀ a ∈ before, g.firstPath goal (g.target a) (v :: trail) = none := by
  rw [firstPath_of_notMem hv h, List.findSome?_eq_some_iff]
  simp only [Option.map_eq_some_iff, Option.map_eq_none_iff]
  constructor
  · rintro ⟨before, e, after, hsplit, ⟨rest, hrest, rfl⟩, hnone⟩
    exact ⟨before, e, after, rest, hsplit, rfl, hrest, hnone⟩
  · rintro ⟨before, e, after, rest, hsplit, rfl, hrest, hnone⟩
    exact ⟨before, e, after, hsplit, ⟨rest, hrest, rfl⟩, hnone⟩

theorem simplePath_cons_iff : g.SimplePath v (e :: es) goal ↔
    e ∈ g.leaving v ∧ v ≠ goal ∧ g.SimplePath (g.target e) es goal ∧ g.Avoids [v] es := by
  unfold SimplePath Avoids
  rw [mem_leaving, List.map_cons, List.cons_append, List.nodup_cons]
  constructor
  · rintro ⟨hpath, hv, hnodup⟩
    cases hpath with
    | cons he rest =>
      rw [List.mem_append, List.mem_singleton, not_or] at hv
      refine ⟨⟨he, rfl⟩, hv.2, ⟨rest, hnodup⟩, ?_⟩
      intro a ha hs
      exact hv.1 (List.mem_map.mpr ⟨a, ha, List.mem_singleton.mp hs⟩)
  · rintro ⟨⟨he, rfl⟩, hv, ⟨rest, hnodup⟩, havoid⟩
    refine ⟨.cons he rest, ?_, hnodup⟩
    rw [List.mem_append, List.mem_singleton, not_or]
    refine ⟨?_, hv⟩
    intro hm
    obtain ⟨a, ha, hs⟩ := List.mem_map.mp hm
    exact havoid a ha (List.mem_singleton.mpr hs)

/-- What is found is a simple path off the trail. -/
theorem simplePath_of_firstPath (h : g.firstPath goal v trail = some es) :
    g.SimplePath v es goal ∧ g.Avoids trail es := by
  induction v, trail using firstPath.induct g goal generalizing es with
  | case1 trail =>
    rw [firstPath_goal] at h
    cases h
    refine ⟨simplePath_nil_iff.mpr rfl, ?_⟩
    intro a ha
    cases ha
  | case2 v trail hv hm =>
    rw [firstPath_of_mem hv hm] at h
    cases h
  | case3 v trail hv hm ih =>
    obtain ⟨before, e, after, rest, hsplit, rfl, hrest, _⟩ := (firstPath_eq_some_iff hv hm).mp h
    have he : e ∈ g.leaving v := by
      rw [hsplit]
      exact List.mem_append_right _ List.mem_cons_self
    obtain ⟨hpath, havoid⟩ := ih ⟨e, he⟩ hrest
    obtain ⟨hself, htrail⟩ := avoids_cons_iff.mp havoid
    refine ⟨simplePath_cons_iff.mpr ⟨he, hv, hpath, hself⟩, ?_⟩
    intro a ha
    rcases List.mem_cons.mp ha with rfl | ha
    · rw [(mem_leaving.mp he).2]
      exact hm
    · exact htrail a ha

/-- Where one edge leads to the goal, the path found goes on by that edge or by an earlier one. -/
theorem firstPath_branch {rank : ε → Nat} (hrank : g.edges.Pairwise fun a b => rank a < rank b)
    (hv : v ≠ goal) (hm : v ∉ trail) (he : e ∈ g.leaving v)
    (hfound : g.firstPath goal (g.target e) (v :: trail) = some ws) :
    ∃ a rest, g.firstPath goal v trail = some (a :: rest) ∧
      ((a = e ∧ rest = ws) ∨ rank a < rank e) := by
  have hsome : (g.firstPath goal v trail).isSome := by
    rw [firstPath_of_notMem hv hm, List.findSome?_isSome_iff]
    exact ⟨e, he, by simp [hfound]⟩
  obtain ⟨es, hes⟩ := Option.isSome_iff_exists.mp hsome
  obtain ⟨before, a, after, rest, hsplit, rfl, hfirst, hnone⟩ :=
    (firstPath_eq_some_iff hv hm).mp hes
  refine ⟨a, rest, hes, ?_⟩
  rw [hsplit] at he
  rcases List.mem_append.mp he with he | he
  · rw [hnone e he] at hfound
    cases hfound
  rcases List.mem_cons.mp he with rfl | he
  · rw [hfirst] at hfound
    cases hfound
    exact .inl ⟨rfl, rfl⟩
  · have hsorted : (before ++ a :: after).Pairwise fun a b => rank a < rank b :=
      hsplit ▸ hrank.filter _
    exact .inr ((List.pairwise_cons.mp (List.pairwise_append.mp hsorted).2.1).1 e he)

/-- Some path is found when there is a simple one off the trail, and no such path comes earlier in
the order of the edges. -/
theorem firstPath_le {rank : ε → Nat} (hrank : g.edges.Pairwise fun a b => rank a < rank b)
    (hpath : g.SimplePath v ws goal) (havoid : g.Avoids trail ws) :
    ∃ es, g.firstPath goal v trail = some es ∧
      (es = ws ∨ List.Lex (· < ·) (es.map rank) (ws.map rank)) := by
  induction v, trail using firstPath.induct g goal generalizing ws with
  | case1 trail =>
    refine ⟨[], firstPath_goal g goal trail, ?_⟩
    cases ws with
    | nil => exact .inl rfl
    | cons e ws => exact absurd rfl (simplePath_cons_iff.mp hpath).2.1
  | case2 v trail hv hm =>
    cases ws with
    | nil => exact absurd (simplePath_nil_iff.mp hpath) hv
    | cons e ws =>
      have hs := (mem_leaving.mp (simplePath_cons_iff.mp hpath).1).2
      exact absurd (hs ▸ hm) (havoid e List.mem_cons_self)
  | case3 v trail hv hm ih =>
    cases ws with
    | nil => exact absurd (simplePath_nil_iff.mp hpath) hv
    | cons e ws =>
      obtain ⟨he, _, hrest, hself⟩ := simplePath_cons_iff.mp hpath
      have htail : g.Avoids (v :: trail) ws :=
        avoids_cons_iff.mpr ⟨hself, fun a ha => havoid a (List.mem_cons_of_mem e ha)⟩
      obtain ⟨found, hfound, hle⟩ := ih ⟨e, he⟩ hrest htail
      obtain ⟨a, rest, hes, hfirst⟩ := firstPath_branch hrank hv hm he hfound
      refine ⟨a :: rest, hes, ?_⟩
      rcases hfirst with ⟨rfl, rfl⟩ | hlt
      · rcases hle with rfl | hlt
        · exact .inl rfl
        · exact .inr (.cons hlt)
      · exact .inr (.rel hlt)

theorem Sealed.firstPath_eq_none (h : g.Sealed goal trail visited) (hv : v ∈ visited) :
    g.firstPath goal v trail = none := by
  cases hf : g.firstPath goal v trail with
  | none => rfl
  | some es =>
    obtain ⟨⟨hpath, _⟩, havoid⟩ := simplePath_of_firstPath hf
    exact absurd havoid (h.not_avoids hv hpath)

end FirstPath

/-- A search comes to what trying the paths off the trail comes to. In vain, it has sealed off what
it entered. -/
def Agrees (g : Digraph ν ε) (goal : ν) (trail : List ν) (path : List ε) :
    Found ν ε → Option (List ε) → Prop
  | .path found, tried => ∃ es, tried = some es ∧ found = path ++ es
  | .nowhere visited, tried => tried = none ∧ g.Sealed goal trail visited

section Search
variable {g : Digraph ν ε} {goal v : ν} {trail visited : List ν}

theorem search_branches {es : List ε} (path : List ε) (h : g.Sealed goal trail visited)
    (hall : ∀ e ∈ es, ∀ path visited, g.Sealed goal trail visited →
      g.Agrees goal trail path (g.search goal [(g.target e, path)] visited)
        (g.firstPath goal (g.target e) trail)) :
    g.Agrees goal trail path (g.search goal (es.map fun e => (g.target e, path ++ [e])) visited)
      (es.findSome? fun e => (g.firstPath goal (g.target e) trail).map fun es => e :: es) := by
  induction es generalizing visited with
  | nil =>
    rw [List.map_nil, search, List.findSome?_nil]
    exact ⟨rfl, h⟩
  | cons e es ih =>
    have hfirst := hall e List.mem_cons_self (path ++ [e]) visited h
    rw [List.map_cons, ← List.singleton_append, search_append, List.findSome?_cons]
    revert hfirst
    cases g.search goal [(g.target e, path ++ [e])] visited with
    | path found =>
      rintro ⟨rest, hrest, rfl⟩
      rw [hrest]
      exact ⟨e :: rest, rfl, by simp⟩
    | nowhere after =>
      rintro ⟨hnone, hafter⟩
      rw [hnone]
      exact ih hafter fun a ha => hall a (List.mem_cons_of_mem e ha)

/-- The search of one vertex agrees with trying the paths from there. -/
theorem search_agrees (path : List ε) (h : g.Sealed goal trail visited) :
    g.Agrees goal trail path (g.search goal [(v, path)] visited) (g.firstPath goal v trail) := by
  induction v, trail using firstPath.induct g goal generalizing path visited with
  | case1 trail =>
    rw [search, if_pos rfl, firstPath_goal]
    exact ⟨[], rfl, (List.append_nil path).symm⟩
  | case2 v trail hv hm =>
    rw [search, if_neg hv, if_pos (h.entered v hm), search, firstPath_of_mem hv hm]
    exact ⟨rfl, h⟩
  | case3 v trail hv hm ih =>
    by_cases hvis : v ∈ visited
    · rw [search, if_neg hv, if_pos hvis, search, h.firstPath_eq_none hvis]
      exact ⟨rfl, h⟩
    · rw [search, if_neg hv, if_neg hvis, List.append_nil, firstPath_of_notMem hv hm]
      have hbranches := search_branches path (h.enter hv)
        fun e he path visited hsealed => ih ⟨e, he⟩ path hsealed
      revert hbranches
      cases hs : g.search goal ((g.leaving v).map fun e => (g.target e, path ++ [e]))
          (v :: visited) with
      | path found => exact id
      | nowhere after =>
        rintro ⟨hnone, hafter⟩
        refine ⟨hnone, hafter.leave ?_⟩
        -- all that the edges of the vertex lead to was on the agenda
        rintro w ⟨e, he, hsource, rfl⟩
        exact (exhausted_of_search hs).enters (g.target e, path ++ [e])
          (List.mem_map_of_mem (mem_leaving.mpr ⟨he, hsource⟩))

theorem cycleThrough_eq_firstPath (g : Digraph ν ε) (e : ε) :
    g.cycleThrough e =
      (g.firstPath (g.source e) (g.target e) []).map fun es => e :: es := by
  have hstart : g.Sealed (g.source e) [] [] := by
    refine ⟨List.not_mem_nil, fun _ hv => hv, ?_⟩
    intro v hv
    cases hv
  have h := search_agrees (v := g.target e) [e] hstart
  unfold cycleThrough
  revert h
  cases g.search (g.source e) [(g.target e, [e])] [] with
  | path found =>
    rintro ⟨es, hes, rfl⟩
    rw [hes]
    rfl
  | nowhere visited =>
    rintro ⟨hnone, _⟩
    rw [hnone]
    rfl

theorem simplePath_of_cycleThrough {e : ε} {c : List ε} (h : g.cycleThrough e = some c) :
    ∃ es, c = e :: es ∧ g.SimplePath (g.target e) es (g.source e) := by
  rw [cycleThrough_eq_firstPath] at h
  obtain ⟨es, hes, rfl⟩ := Option.map_eq_some_iff.mp h
  exact ⟨es, rfl, (simplePath_of_firstPath hes).1⟩

end Search
end Digraph

namespace Validation

theorem linkGraph_sorted (links : List Link) :
    (linkGraph links).edges.Pairwise fun a b => a.2 < b.2 := by
  have h : ((links.zipIdx).map Prod.snd).Pairwise (· < ·) := by
    rw [List.zipIdx_map_snd]
    exact List.pairwise_lt_range'
  exact List.pairwise_map.mp h

/-- The first of the simple paths between two nodes, in the order of the positions of their links
in the list. -/
structure FirstSimplePath (links : List Link) (m : Node) (es : List (Link × Nat)) (n : Node) :
    Prop where
  simple : (linkGraph links).SimplePath m es n
  before : ∀ ws, (linkGraph links).SimplePath m ws n → ws ≠ es →
    List.Lex (· < ·) (es.map Prod.snd) (ws.map Prod.snd)

/-- To enter no node twice loses nothing: the search from a link gives what trying all simple paths
in turn gives, which is the first simple path back to the source of the link, if there is any. -/
theorem cycleThrough_first (links : List Link) (e : Link × Nat) :
    (linkGraph links).cycleThrough e =
        ((linkGraph links).firstPath e.1.source e.1.target []).map (fun es => e :: es) ∧
      (∀ c, (linkGraph links).cycleThrough e = some c →
        ∃ es, c = e :: es ∧ FirstSimplePath links e.1.target es e.1.source) ∧
      ((linkGraph links).cycleThrough e = none →
        ∀ ws, ¬ (linkGraph links).SimplePath e.1.target ws e.1.source) := by
  have heq : (linkGraph links).cycleThrough e =
      ((linkGraph links).firstPath e.1.source e.1.target []).map fun es => e :: es :=
    (linkGraph links).cycleThrough_eq_firstPath e
  have hle : ∀ ws, (linkGraph links).SimplePath e.1.target ws e.1.source →
      ∃ es, (linkGraph links).firstPath e.1.source e.1.target [] = some es ∧
        (es = ws ∨ List.Lex (· < ·) (es.map Prod.snd) (ws.map Prod.snd)) := by
    intro ws hws
    exact Digraph.firstPath_le (linkGraph_sorted links) hws fun _ _ => List.not_mem_nil
  refine ⟨heq, ?_, ?_⟩
  · intro c hc
    obtain ⟨es, rfl, hsimple⟩ := Digraph.simplePath_of_cycleThrough hc
    refine ⟨es, rfl, hsimple, ?_⟩
    intro ws hws hne
    obtain ⟨found, hfound, hlt⟩ := hle ws hws
    rw [heq, hfound] at hc
    cases hc
    exact hlt.resolve_left (Ne.symm hne)
  · intro hnone ws hws
    obtain ⟨found, hfound, _⟩ := hle ws hws
    rw [heq, hfound] at hnone
    cases hnone

end Validation
end Workflow
