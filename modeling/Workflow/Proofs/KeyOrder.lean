import Workflow.Program.Script
import Workflow.Proofs.Reordering

/-!
# The order of the keys

Bodies that reach the context through its keyed operations alone cannot tell two contexts apart that
hold the same entries in different orders. What an operation answers is the same on both and what it
leaves is alike again; this goes through programs by induction, then from node to node through a
run, which comes to the same result and the same report and leaves alike contexts.
-/

namespace Workflow

set_option autoImplicit false

namespace Context
variable {c d : Context}

theorem read_eq_of_alike (h : c.Alike d) (k : String) : c.read k = d.read k :=
  OrderedMap.alike_iff_get?.mp h k

theorem store_alike (h : c.Alike d) (k : String) (v : Json) : (c.store k v).Alike (d.store k v) :=
  h.insert k v

theorem storeEncoded_alike (h : c.Alike d) (k : String) (v : Except Json.Unencodable Json) :
    (c.storeEncoded k v).1 = (d.storeEncoded k v).1 ∧
      (c.storeEncoded k v).2.Alike (d.storeEncoded k v).2 := by
  cases v with
  | ok v => exact ⟨rfl, store_alike h k v⟩
  | error e => exact ⟨rfl, h⟩

theorem delete_alike (h : c.Alike d) (k : String) :
    (c.delete k).1 = (d.delete k).1 ∧ (c.delete k).2.Alike (d.delete k).2 :=
  ⟨read_eq_of_alike h k, h.erase k⟩

theorem readAs_eq_of_alike {α : Type} (h : c.Alike d) (k : String)
    (decode : Json → Except Json.Mismatch α) : c.readAs k decode = d.readAs k decode := by
  rw [readAs, readAs, read_eq_of_alike h]

theorem haveKey_eq_of_alike (h : c.Alike d) (k : String) : c.haveKey k = d.haveKey k := by
  rw [haveKey_eq_isSome, haveKey_eq_isSome, read_eq_of_alike h]

theorem len_eq_of_alike (h : c.Alike d) : c.len = d.len := h.size_eq

theorem isEmpty_eq_of_alike (h : c.Alike d) : c.isEmpty = d.isEmpty := by
  rw [isEmpty, isEmpty, len_eq_of_alike h]

end Context

/-- A program gets the same answers on alike contexts, so it goes the same way on both. -/
theorem Program.run_alike {α : Type} (p : Program α) {c d : Context} (h : c.Alike d) :
    (p.run c).1 = (p.run d).1 ∧ (p.run c).2.Alike (p.run d).2 := by
  induction p generalizing c d with
  | done a => exact ⟨rfl, h⟩
  | fail f => exact ⟨rfl, h⟩
  | store k v next ih => exact ih (Context.store_alike h k v)
  | storeEncoded k v next ih =>
    obtain ⟨hanswer, halike⟩ := Context.storeEncoded_alike h k v
    simp only [run, hanswer]
    exact ih _ halike
  | delete k next ih =>
    obtain ⟨hanswer, halike⟩ := Context.delete_alike h k
    simp only [run, hanswer]
    exact ih _ halike
  | read k next ih =>
    simp only [run, Context.read_eq_of_alike h]
    exact ih _ h
  | readAs k decode next ih =>
    simp only [run, Context.readAs_eq_of_alike h]
    exact ih _ h
  | haveKey k next ih =>
    simp only [run, Context.haveKey_eq_of_alike h]
    exact ih _ h
  | len next ih =>
    simp only [run, Context.len_eq_of_alike h]
    exact ih _ h
  | isEmpty next ih =>
    simp only [run, Context.isEmpty_eq_of_alike h]
    exact ih _ h

namespace Body

/-- The body of an action, a decision or a custom node that is a program over the context. A
decision is asked for its answer alone. -/
inductive Keyed : Body → Prop where
  | action (work : Program Unit) : Keyed (.action work.run)
  | decision (answer : Program Bool) : Keyed (.decision fun c => (answer.run c).1)
  | custom (work : Program Outcome) : Keyed (.custom work.run)

/-- The very same outcome and alike contexts, on alike contexts. -/
def Uniform (b : Body) : Prop :=
  ∀ c d : Context, c.Alike d → (b c).1 = (b d).1 ∧ (b c).2.Alike (b d).2

theorem uniform_custom (work : Program Outcome) : (custom work.run).Uniform := by
  intro c d hcd
  obtain ⟨hresult, halike⟩ := work.run_alike hcd
  rcases hc : work.run c with ⟨r, c'⟩
  rcases hd : work.run d with ⟨r', d'⟩
  rw [hc, hd] at hresult halike
  obtain rfl : r = r' := hresult
  simp only [custom, hc, hd]
  cases r with
  | ok o => exact ⟨rfl, halike⟩
  | error f => exact ⟨rfl, halike⟩

/-- An action is a custom body that goes on when its work is done. -/
theorem action_eq_custom (work : Program Unit) :
    action work.run = custom (work.bind fun _ => .done (.proceed none)).run := by
  funext c
  unfold action custom
  rw [Program.run_bind]
  rcases work.run c with ⟨_ | _, d⟩ <;> rfl

theorem uniform_decision (answer : Program Bool) :
    (decision fun c => (answer.run c).1).Uniform := by
  intro c d hcd
  simp only [decision, (answer.run_alike hcd).1]
  cases (answer.run d).1 with
  | ok b => exact ⟨rfl, hcd⟩
  | error f => exact ⟨rfl, hcd⟩

theorem Keyed.uniform {b : Body} (h : b.Keyed) : b.Uniform := by
  cases h with
  | action work => exact action_eq_custom work ▸ uniform_custom _
  | decision answer => exact uniform_decision answer
  | custom work => exact uniform_custom work

theorem uniform_skipped : Uniform skipped := fun _ _ h => ⟨rfl, h⟩

end Body

/-- The same report, and contexts that are alike. -/
structure Stage.Matches (s t : Stage) : Prop where
  context : s.context.Alike t.context
  report : s.report = t.report

namespace Draft
variable {d : Draft} {body : Node → Body} {n : Node} {ns : List Node} {s t : Stage}

theorem uniform_resolve {r : Report} (h : (body n).Uniform) : (d.resolve body r n).Uniform := by
  unfold resolve
  split
  · exact h
  · exact Body.uniform_skipped

/-- Whether a node runs is read off the report, and its body does not see the order of the keys. -/
theorem settle_matches (hn : (body n).Uniform) (h : s.Matches t) :
    (d.settle body n s).1 = (d.settle body n t).1 ∧
      (d.settle body n s).2.Matches (d.settle body n t).2 := by
  have huniform : (d.resolve body t.report n).Uniform := uniform_resolve hn
  obtain ⟨houtcome, halike⟩ := huniform s.context t.context h.context
  unfold settle
  rw [h.report]
  refine ⟨houtcome, halike, ?_⟩
  dsimp only
  rw [houtcome]

theorem perform_matches (hns : ∀ n ∈ ns, (body n).Uniform) (h : s.Matches t) :
    (d.perform body ns s).1 = (d.perform body ns t).1 ∧
      (d.perform body ns s).2.Matches (d.perform body ns t).2 := by
  induction ns generalizing s t with
  | nil => exact ⟨rfl, h⟩
  | cons n ns ih =>
    obtain ⟨houtcome, hmatches⟩ := settle_matches (d := d) (hns n List.mem_cons_self) h
    cases ho : (d.settle body n s).1.isAbort with
    | true =>
      obtain ⟨f, hf⟩ := Outcome.isAbort_iff.mp ho
      rw [perform_cons_abort hf, perform_cons_abort (houtcome ▸ hf)]
      exact ⟨rfl, hmatches⟩
    | false =>
      rw [perform_cons ho, perform_cons (houtcome ▸ ho)]
      exact ih (fun k hk => hns k (List.mem_cons_of_mem n hk)) hmatches

end Draft

/-- In whatever order the first context holds its keys, a run of keyed bodies comes to the same
result, with the same failure when it is aborted, and to the same report, entry by entry; the
contexts that are left hold the same entries again. -/
theorem Run.compute_alike (p : Plan) {body : Node → Body} (hbody : ∀ n ∈ p.nodes, (body n).Keyed)
    {c d : Context} (h : c.Alike d) :
    (compute body (ofPlan p c)).1 = (compute body (ofPlan p d)).1 ∧
      (compute body (ofPlan p c)).2.report = (compute body (ofPlan p d)).2.report ∧
        (compute body (ofPlan p c)).2.context.Alike (compute body (ofPlan p d)).2.context := by
  obtain ⟨a, s, hperform, hresult, hstage⟩ := compute_ofPlan p body c
  obtain ⟨b, t, hperform', hresult', hstage'⟩ := compute_ofPlan p body d
  have huniform : ∀ n ∈ visitOrder p.nodes p.links, (body n).Uniform :=
    fun n hn => (hbody n (p.mem_visitOrder.mp hn)).uniform
  have hstart : (Stage.ofContext c).Matches (Stage.ofContext d) := ⟨h, rfl⟩
  obtain ⟨hend, hmatches⟩ := Draft.perform_matches (d := p.toDraft) huniform hstart
  rw [hperform, hperform'] at hend hmatches
  have hab : a = b := hend
  rw [← hstage, ← hstage'] at hmatches
  refine ⟨?_, hmatches.report, hmatches.context⟩
  rw [hresult, hresult', hab]

namespace Sample

/-- Keyed bodies of the three kinds. `left` takes "stock" out and puts it back last, `check` asks
for the batch flag, and `ship` counts the stock down and fails when there is none. -/
def keyedBody (n : Node) : Body :=
  if n = left then
    .action (Step.programs [.copy "stock" "kept", .delete "stock", .copy "kept" "stock"]).run
  else if n = check then .decision fun c => ((Test.flag "batch").program.run c).1
  else if n = ship then
    .custom ((Step.programs [.need "stock", .increase "stock" (-1)]).bind
      fun _ => .done (.proceed none)).run
  else .action (Step.store n.name .null).program.run

theorem keyedBody_keyed (n : Node) : (keyedBody n).Keyed := by
  unfold keyedBody
  split
  · exact .action _
  · split
    · exact .decision _
    · split
      · exact .custom _
      · exact .action _

end Sample

open Sample in
theorem compute_alike_sample :
    ((∀ n ∈ plan.nodes, (keyedBody n).Keyed) ∧ context.Alike swapped) ∧
    (Run.compute keyedBody (.ofPlan plan context)).1 =
        (Run.compute keyedBody (.ofPlan plan swapped)).1 ∧
      (Run.compute keyedBody (.ofPlan plan context)).2.report =
        (Run.compute keyedBody (.ofPlan plan swapped)).2.report ∧
      (Run.compute keyedBody (.ofPlan plan context)).2.context.Alike
        (Run.compute keyedBody (.ofPlan plan swapped)).2.context :=
  ⟨⟨fun n _ => keyedBody_keyed n, alike⟩,
    Run.compute_alike plan (fun n _ => keyedBody_keyed n) alike⟩

end Workflow
