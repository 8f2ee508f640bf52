import Mathlib.Logic.Embedding.Basic
import Workflow.Call
import Workflow.Proofs.Relabelling
import Workflow.Proofs.Reachability

/-!
# Renamed graphs

A renaming gives every node another id, different ids to different nodes, and leaves its name and
its deciding alone. A graph is renamed throughout: in its nodes, at the ends of its links, in the
keys of its joins. Everything that a graph is asked then has the renamed answer, in the same order:
ids tell nodes apart and do nothing else.
-/

namespace Workflow

set_option autoImplicit false

variable (f : Nat ↪ Nat)

namespace Node

def rename (n : Node) : Node := { n with id := f n.id }

theorem rename_injective : Function.Injective (rename f) := by
  intro m n h
  obtain ⟨hid, hname, hdecides⟩ := (mk.injEq ..).mp h
  cases m
  cases n
  exact (mk.injEq ..).mpr ⟨f.injective hid, hname, hdecides⟩

theorem contains_rename (ns : List Node) (n : Node) :
    (ns.map (rename f)).contains (n.rename f) = ns.contains n := by
  rw [Bool.eq_iff_iff, List.contains_iff_mem, List.contains_iff_mem,
    List.mem_map_of_injective (rename_injective f)]

end Node

namespace Link

def rename (l : Link) : Link where
  source := l.source.rename f
  target := l.target.rename f
  branch := l.branch
  branch_isSome := l.branch_isSome
  source_ne_target := (Node.rename_injective f).ne l.source_ne_target

theorem map_rename_ends (near : Link → Node) (h : ∀ l, near (l.rename f) = (near l).rename f)
    (links : List Link) :
    (links.map (rename f)).map near = (links.map near).map (Node.rename f) := by
  rw [List.map_map, List.map_map]
  exact List.map_congr_left fun l _ => h l

end Link

def LinkError.rename : LinkError → LinkError
  | missingSource => missingSource
  | branchMismatch source branch => branchMismatch (source.rename f) branch
  | missingTarget => missingTarget
  | selfLoop node => selfLoop (node.rename f)

theorem Link.make_rename (source target : Option Node) (b : Branch) :
    Link.make (source.map (Node.rename f)) (target.map (Node.rename f)) b =
      ((Link.make source target b).map (Link.rename f)).mapError (LinkError.rename f) := by
  cases source with
  | none => rfl
  | some s =>
    simp only [Link.make, Option.map_some]
    by_cases hb : b.isSome = s.decides
    · rw [dif_pos hb, dif_pos (show b.isSome = (s.rename f).decides from hb)]
      cases target with
      | none => rfl
      | some t =>
        simp only [Option.map_some]
        by_cases h : s = t
        · rw [dif_pos h, dif_pos (congrArg (Node.rename f) h)]
          rfl
        · rw [dif_neg h, dif_neg ((Node.rename_injective f).ne h)]
          rfl
    · rw [dif_neg hb, dif_neg (show ¬ b.isSome = (s.rename f).decides from hb)]
      rfl

def Defect.rename : Defect → Defect
  | orphanDecision node => orphanDecision (node.rename f)
  | cycle links => cycle (links.map (Link.rename f))
  | undeclared node link => undeclared (node.rename f) (link.rename f)
  | duplicate node => duplicate (node.rename f)

/-! ## The four checks -/

namespace Validation

theorem orphans_rename (nodes : List Node) (links : List Link) :
    orphans (nodes.map (Node.rename f)) (links.map (Link.rename f)) =
      (orphans nodes links).map (Node.rename f) := by
  unfold orphans
  rw [List.filter_map]
  congr 1
  apply List.filter_congr
  intro n _
  rw [Function.comp_apply, Link.map_rename_ends f Link.source fun _ => rfl, Node.contains_rename]
  rfl

theorem linkGraph_rename (links : List Link) :
    Digraph.Relabelled (Node.rename f) (Prod.map (Link.rename f) id) (linkGraph links)
      (linkGraph (links.map (Link.rename f))) where
  injective := Node.rename_injective f
  edges := List.zipIdx_map ..
  source _ := rfl
  target _ := rfl

theorem cycles_rename (links : List Link) :
    cycles (links.map (Link.rename f)) = (cycles links).map (List.map (Link.rename f)) := by
  unfold cycles
  rw [(linkGraph_rename f links).cycles, List.map_map, List.map_map]
  apply List.map_congr_left
  intro c _
  rw [Function.comp_apply, Function.comp_apply, List.map_map, List.map_map]
  rfl

theorem undeclared_rename (nodes : List Node) (links : List Link) :
    undeclared (nodes.map (Node.rename f)) (links.map (Link.rename f)) =
      (undeclared nodes links).map (Prod.map (Node.rename f) (Link.rename f)) := by
  unfold undeclared
  rw [List.flatMap_map, List.map_flatMap]
  congr 1
  funext l
  have hends : [(l.rename f).source, (l.rename f).target] =
      [l.source, l.target].map (Node.rename f) := rfl
  rw [hends, List.filter_map, List.map_map, List.map_map]
  simp only [Function.comp_def, Node.contains_rename]
  rfl

theorem counts_rename (nodes : List Node) :
    counts (nodes.map (Node.rename f)) =
      (counts nodes).relabel (Node.rename f) (Node.rename_injective f) id := by
  induction nodes using List.reverseRecOn with
  | nil => rfl
  | append_singleton nodes n ih =>
    rw [List.map_append, List.map_cons, List.map_nil, counts_concat, counts_concat, ih]
    symm
    apply OrderedMap.relabel_alter
    intro c
    rw [Option.map_id]
    rfl

theorem duplicates_rename (nodes : List Node) :
    duplicates (nodes.map (Node.rename f)) = (duplicates nodes).map (Node.rename f) := by
  unfold duplicates
  rw [counts_rename, OrderedMap.entries_relabel, List.filter_map, List.map_map, List.map_map]
  rfl

end Validation

/-- The same defects are found in the same order. -/
theorem defects_rename (nodes : List Node) (links : List Link) :
    defects (nodes.map (Node.rename f)) (links.map (Link.rename f)) =
      (defects nodes links).map (Defect.rename f) := by
  unfold defects
  rw [Validation.orphans_rename, Validation.cycles_rename, Validation.undeclared_rename,
    Validation.duplicates_rename]
  simp only [List.map_append, List.map_map]
  rfl

/-! ## Indexes and plans -/

namespace Adjacency

def rename (a : Adjacency) : Adjacency :=
  a.relabel (Prod.map (Node.rename f) id)
    ((Node.rename_injective f).prodMap Function.injective_id) (List.map (Node.rename f))

theorem get_rename (a : Adjacency) (n : Node) (b : Branch) :
    (rename f a).get (n.rename f) b = (a.get n b).map (Node.rename f) := by
  have h := OrderedMap.get?_relabel ((Node.rename_injective f).prodMap Function.injective_id)
    (List.map (Node.rename f)) a (n, b)
  unfold get rename
  rw [Prod.map_apply, id_eq] at h
  rw [h]
  cases OrderedMap.get? a (n, b) <;> rfl

theorem push_rename (a : Adjacency) (n : Node) (b : Branch) (m : Node) :
    rename f (a.push n b m) = (rename f a).push (n.rename f) b (m.rename f) := by
  apply OrderedMap.relabel_alter
  intro ms
  rw [List.map_append]
  cases ms <;> rfl

theorem index_rename (near far : Link → Node) (hnear : ∀ l, near (l.rename f) = (near l).rename f)
    (hfar : ∀ l, far (l.rename f) = (far l).rename f) (links : List Link) :
    index near far (links.map (Link.rename f)) = rename f (index near far links) := by
  suffices h : ∀ a : Adjacency,
      (links.map (Link.rename f)).foldl (fun a l => a.push (near l) l.branch (far l))
          (rename f a) =
        rename f (links.foldl (fun a l => a.push (near l) l.branch (far l)) a) from h ∅
  induction links with
  | nil => exact fun _ => rfl
  | cons l links ih =>
    intro a
    rw [List.map_cons, List.foldl_cons, List.foldl_cons, hnear, hfar, ← ih, push_rename]
    rfl

end Adjacency

namespace Draft

def rename (d : Draft) : Draft where
  nodes := d.nodes.map (Node.rename f)
  links := d.links.map (Link.rename f)
  joins := d.joins.relabel (Node.rename f) (Node.rename_injective f) id

theorem defects_rename (d : Draft) :
    (d.rename f).defects = d.defects.map (Defect.rename f) :=
  Workflow.defects_rename f d.nodes d.links

theorem sources_rename (d : Draft) : (d.rename f).sources = d.sources.map (Node.rename f) := by
  unfold sources rename
  rw [List.filter_map]
  congr 1
  apply List.filter_congr
  intro n _
  rw [Function.comp_apply, Link.map_rename_ends f Link.target fun _ => rfl, Node.contains_rename]

theorem joinOf_rename (d : Draft) (n : Node) : (d.rename f).joinOf (n.rename f) = d.joinOf n := by
  unfold joinOf rename
  rw [OrderedMap.get?_relabel, Option.map_id, id]

theorem addNode_rename (d : Draft) (n : Node) :
    (d.addNode n).rename f = (d.rename f).addNode (n.rename f) := by
  simp only [addNode, rename, List.map_append, List.map_cons, List.map_nil]

theorem addLink_rename (d : Draft) (l : Link) :
    (d.addLink l).rename f = (d.rename f).addLink (l.rename f) := by
  simp only [addLink, rename, List.map_append, List.map_cons, List.map_nil]

theorem setJoin_rename (d : Draft) (n : Node) (j : Join) :
    (d.setJoin n j).rename f = (d.rename f).setJoin (n.rename f) j := by
  simp only [setJoin, rename, OrderedMap.relabel_insert, id]

end Draft

namespace Plan

def rename (p : Plan) : Plan where
  toDraft := p.toDraft.rename f
  initial := p.initial.map (Node.rename f)
  followers := p.followers.rename f
  ancestors := p.ancestors.rename f
  valid := by rw [Draft.defects_rename, p.valid, List.map_nil]
  initial_eq := by rw [p.initial_eq, Draft.sources_rename]
  followers_eq := by
    rw [p.followers_eq]
    exact (Adjacency.index_rename f _ _ (fun _ => rfl) (fun _ => rfl) p.links).symm
  ancestors_eq := by
    rw [p.ancestors_eq]
    exact (Adjacency.index_rename f _ _ (fun _ => rfl) (fun _ => rfl) p.links).symm

theorem eq_of_draft {p q : Plan} (h : p.toDraft = q.toDraft) : p = q := by
  obtain ⟨d, _, _, _, _, rfl, rfl, rfl⟩ := p
  obtain ⟨e, _, _, _, _, rfl, rfl, rfl⟩ := q
  subst h
  rfl

theorem joinOf_rename (p : Plan) (n : Node) : (p.rename f).joinOf (n.rename f) = p.joinOf n :=
  Draft.joinOf_rename f p.toDraft n

theorem follow_rename (p : Plan) (n : Node) (b : Branch) :
    (p.rename f).follow (n.rename f) b = (p.follow n b).map (Node.rename f) :=
  Adjacency.get_rename f p.followers n b

theorem feeding_rename (p : Plan) (n : Node) (b : Branch) :
    (p.rename f).feeding (n.rename f) b = (p.feeding n b).map (Node.rename f) :=
  Adjacency.get_rename f p.ancestors n b

theorem feeds_rename (p : Plan) (n : Node) :
    (p.rename f).feeds (n.rename f) = (p.feeds n).map (Prod.map (Node.rename f) id) := by
  unfold feeds
  rw [List.map_flatMap]
  congr 1
  funext b
  rw [feeding_rename, List.map_map, List.map_map]
  rfl

theorem successors_rename (p : Plan) (n : Node) :
    (p.rename f).successors (n.rename f) = (p.successors n).map (Node.rename f) := by
  unfold successors
  rw [List.map_flatMap]
  congr 1
  funext b
  exact follow_rename f p n b

end Plan

/-! ## Calls -/

def GraphError.rename : GraphError → GraphError
  | frozen => frozen
  | link why => link (why.rename f)
  | invalid defects => invalid (defects.map (Defect.rename f))
  | notActivated => notActivated

def Answer.rename : Answer → Answer
  | done => done
  | refused why => refused (why.rename f)
  | unsound defects => unsound (defects.map (Defect.rename f))

def Call.rename : Call → Call
  | addNode node => addNode (node.rename f)
  | setJoin node join => setJoin (node.rename f) join
  | addLink source target => addLink (source.rename f) (target.rename f)
  | addLinkOn source target answer => addLinkOn (source.rename f) (target.rename f) answer
  | check => check
  | activate => activate

namespace Graph

def rename : Graph → Graph
  | building d => building (d.rename f)
  | active p => active (p.rename f)

theorem draft_rename (g : Graph) : (g.rename f).draft = g.draft.rename f := by
  cases g <;> rfl

theorem check_rename (g : Graph) : (g.rename f).check = g.check.map (Defect.rename f) := by
  unfold check
  rw [draft_rename, Draft.defects_rename]

theorem joinOf_rename (g : Graph) (n : Node) : (g.rename f).joinOf (n.rename f) = g.joinOf n := by
  unfold joinOf
  rw [draft_rename, Draft.joinOf_rename]

theorem initial_rename (g : Graph) : (g.rename f).initial = g.initial.map (Node.rename f) := by
  cases g <;> rfl

theorem follow_rename (g : Graph) (n : Node) (b : Branch) :
    (g.rename f).follow (n.rename f) b =
      ((g.follow n b).map (List.map (Node.rename f))).mapError (GraphError.rename f) := by
  cases g with
  | building d => rfl
  | active p => exact congrArg Except.ok (p.follow_rename f n b)

theorem feeding_rename (g : Graph) (n : Node) (b : Branch) :
    (g.rename f).feeding (n.rename f) b =
      ((g.feeding n b).map (List.map (Node.rename f))).mapError (GraphError.rename f) := by
  cases g with
  | building d => rfl
  | active p => exact congrArg Except.ok (p.feeding_rename f n b)

theorem edit_rename (g : Graph) {change change' : Draft → Except GraphError Draft}
    (h : ∀ d, change' (d.rename f) =
      ((change d).map (Draft.rename f)).mapError (GraphError.rename f)) :
    (g.rename f).edit change' =
      ((g.edit change).map (rename f)).mapError (GraphError.rename f) := by
  cases g with
  | active p => rfl
  | building d =>
    simp only [edit, rename, h]
    cases change d <;> rfl

theorem addNode_rename (g : Graph) (n : Node) :
    (g.rename f).addNode (n.rename f) =
      ((g.addNode n).map (rename f)).mapError (GraphError.rename f) := by
  apply edit_rename
  intro d
  exact congrArg Except.ok (d.addNode_rename f n).symm

theorem setJoin_rename (g : Graph) (n : Node) (j : Join) :
    (g.rename f).setJoin (n.rename f) j =
      ((g.setJoin n j).map (rename f)).mapError (GraphError.rename f) := by
  apply edit_rename
  intro d
  exact congrArg Except.ok (d.setJoin_rename f n j).symm

theorem addLink_rename (g : Graph) (source target : Node) (b : Branch) :
    (g.rename f).addLink (source.rename f) (target.rename f) b =
      ((g.addLink source target b).map (rename f)).mapError (GraphError.rename f) := by
  have hmake := Link.make_rename f (some source) (some target) b
  rw [Option.map_some, Option.map_some] at hmake
  apply edit_rename
  intro d
  rw [hmake]
  cases Link.make (some source) (some target) b with
  | error e => rfl
  | ok l => exact congrArg Except.ok (d.addLink_rename f l).symm

/-- Activation succeeds for both or fails for both, with the same defects. -/
theorem activate_rename (g : Graph) :
    (g.rename f).activate = (g.activate.map (rename f)).mapError (GraphError.rename f) := by
  cases g with
  | active p => rfl
  | building d =>
    simp only [activate, rename]
    by_cases h : d.defects = []
    · have h' : (d.rename f).defects = [] := by rw [Draft.defects_rename, h, List.map_nil]
      rw [dif_pos h, dif_pos h']
      exact congrArg (fun p => Except.ok (active p)) (Plan.eq_of_draft rfl)
    · have h' : (d.rename f).defects ≠ [] := by
        rw [Draft.defects_rename]
        exact mt List.map_eq_nil_iff.mp h
      rw [dif_neg h, dif_neg h', Draft.defects_rename]
      rfl

theorem adopt_rename (g : Graph) (r : Except GraphError Graph) :
    (g.rename f).adopt ((r.map (rename f)).mapError (GraphError.rename f)) =
      ((g.adopt r).1.rename f, (g.adopt r).2.rename f) := by
  cases r <;> rfl

theorem call_rename (g : Graph) (c : Call) :
    (g.rename f).call (c.rename f) = ((g.call c).1.rename f, (g.call c).2.rename f) := by
  cases c with
  | check =>
    simp only [call, Call.rename, check_rename]
    cases g.check <;> rfl
  | _ =>
    simp only [call, Call.rename, addNode_rename, setJoin_rename, addLink_rename, activate_rename,
      adopt_rename]

/-- A renamed history leaves the renamed graph. -/
theorem after_rename (g : Graph) (cs : List Call) :
    (g.rename f).after (cs.map (Call.rename f)) = (g.after cs).rename f := by
  induction cs generalizing g with
  | nil => rfl
  | cons c cs ih => rw [List.map_cons, after_cons, after_cons, call_rename, ih]

end Graph
end Workflow
