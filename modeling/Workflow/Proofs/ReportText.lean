import Mathlib.Data.List.Forall2
import Workflow.Proofs.Loading
import Workflow.Proofs.Visits

/-!
# Reports by their text

The text of a report says all that the report says. The label of a node ends in its identity, so
that nodes have different labels whatever their names are; the text is read back as one member for
each node, in the order of the visits, and from a member the outcome is known up to what stands
behind the message of a failure.
-/

namespace Workflow

set_option autoImplicit false

section LastPlace
variable {α : Type} [DecidableEq α] {a : α} {xs ys us vs : List α}

theorem takeWhile_reverse_append_cons (h : a ∉ us) :
    (xs ++ a :: us).reverse.takeWhile (· ≠ a) = us.reverse := by
  have hus : ∀ b ∈ us.reverse, decide (b ≠ a) = true := by
    intro b hb
    exact decide_eq_true fun hba => h (hba ▸ List.mem_reverse.mp hb)
  rw [List.reverse_append, List.reverse_cons, List.append_assoc,
    List.takeWhile_append_of_pos hus, List.singleton_append,
    List.takeWhile_cons_of_neg (by simp), List.append_nil]

/-- A list is known by what stands before and behind the last place of an item. -/
theorem eq_of_append_cons_eq (hu : a ∉ us) (hv : a ∉ vs) (h : xs ++ a :: us = ys ++ a :: vs) :
    xs = ys ∧ us = vs := by
  have hback : us.reverse = vs.reverse := by
    rw [← takeWhile_reverse_append_cons hu, h, takeWhile_reverse_append_cons hv]
  obtain rfl := List.reverse_injective hback
  exact ⟨List.append_cancel_right h, rfl⟩

end LastPlace

namespace Node

theorem text_toList (n : Node) : n.text.toList = n.name.toList ++ '#' :: Nat.toDigits 10 n.id := by
  simp [text]

theorem toDigits_injective {i j : Nat} (h : Nat.toDigits 10 i = Nat.toDigits 10 j) : i = j := by
  have hi : Nat.ofDigitChars 10 (Nat.toDigits 10 i) 0 = i := Nat.ofDigitChars_ten_toDigits
  rw [h, Nat.ofDigitChars_ten_toDigits] at hi
  exact hi.symm

theorem hash_notMem_toDigits (i : Nat) : '#' ∉ Nat.toDigits 10 i := by
  intro h
  exact absurd (Json.isDigit_of_mem_toDigits i '#' h) (by decide)

/-- The last number sign of a label stands in front of the identity. -/
theorem text_inj {m n : Node} : m.text = n.text ↔ m.name = n.name ∧ m.id = n.id := by
  constructor
  · intro h
    have hchars := congrArg String.toList h
    rw [text_toList, text_toList] at hchars
    obtain ⟨hname, hid⟩ :=
      eq_of_append_cons_eq (hash_notMem_toDigits m.id) (hash_notMem_toDigits n.id) hchars
    exact ⟨String.toList_inj.mp hname, toDigits_injective hid⟩
  · rintro ⟨hname, hid⟩
    rw [text, text, hname, hid]

end Node

namespace Outcome
variable {o p : Outcome}

theorem members_scalar (o : Outcome) : ∀ m ∈ o.members, m.2.Exact ∧ m.2.depth = 0 := by
  intro m hm
  simp only [members, List.mem_cons, List.not_mem_nil, or_false] at hm
  rcases hm with rfl | rfl | rfl
  · exact ⟨.str _, rfl⟩
  · rcases o with (_ | b) | _ | f <;> exact ⟨by constructor, rfl⟩
  · rcases o with b | _ | f <;> exact ⟨by constructor, rfl⟩

theorem members_inj : o.members = p.members ↔ o.same p = true := by
  rcases o with (_ | b) | _ | f <;> rcases p with (_ | c) | _ | g <;>
    simp [members, kind, branch, branchJson, failure?, Json.ofOption, same, Failure.same]

end Outcome

namespace Report
variable {r s : Report}

/-- An identity belongs to one node, as it does where nodes are told apart by it. -/
def Identified (r : Report) : Prop := (r.keys.map Node.id).Nodup

theorem Identified.labels_nodup (h : r.Identified) : (r.keys.map Node.text).Nodup := by
  apply List.Nodup.map_on _ r.nodup
  intro m hm n hn htext
  exact List.inj_on_of_nodup_map h hm hn (Node.text_inj.mp htext).2

/-- What the text is read back as, whatever the report: its members, as they are. -/
theorem recordsOf_text (r : Report) : Json.recordsOf r.text = .ok (.obj r.members) := by
  apply Json.recordsOf_text
  intro m hm
  obtain ⟨e, -, rfl⟩ := List.mem_map.mp hm
  exact ⟨e.2.members, rfl, e.2.members_scalar⟩

/-- A text that can be read without knowing the report. -/
structure Legible (r : Report) : Prop where
  /-- An object with one member for each node, in the order of the visits. -/
  reads : Json.recordsOf r.text =
    .ok (.obj (r.entries.map fun e => (e.1.name ++ "#" ++ toString e.1.id, e.2.json)))
  labels : (r.keys.map fun n => n.name ++ "#" ++ toString n.id).Nodup

theorem Identified.legible (h : r.Identified) : r.Legible := ⟨r.recordsOf_text, h.labels_nodup⟩

theorem text_eq_iff_members : r.text = s.text ↔ r.members = s.members := by
  constructor
  · intro h
    have hread := r.recordsOf_text
    rw [h, s.recordsOf_text, Except.ok.injEq, Json.obj.injEq] at hread
    exact hread.symm
  · intro h
    rw [text, text, h]

/-- Texts are equal for nodes with the same labels and equal outcomes, place by place. -/
theorem text_inj : r.text = s.text ↔
    List.Forall₂ (fun e f => (e.1.name = f.1.name ∧ e.1.id = f.1.id) ∧ e.2.same f.2 = true)
      r.entries s.entries := by
  rw [text_eq_iff_members, members, members, ← List.forall₂_eq_eq_eq, List.forall₂_map_left_iff,
    List.forall₂_map_right_iff]
  have hplace : ∀ e f : Node × Outcome, (e.1.text, e.2.json) = (f.1.text, f.2.json) ↔
      (e.1.name = f.1.name ∧ e.1.id = f.1.id) ∧ e.2.same f.2 = true := by
    intro e f
    rw [Prod.mk.injEq, Node.text_inj, Outcome.json, Outcome.json, Json.obj.injEq,
      Outcome.members_inj]
  simp only [hplace]

/-- An identity has the same name in both reports. -/
def NamedAlike (r s : Report) : Prop := ∀ m ∈ r.keys, ∀ n ∈ s.keys, m.id = n.id → m.name = n.name

/-- The same nodes in the same order, with equal outcomes. -/
def Tallies (r s : Report) : Prop :=
  List.Forall₂ (fun e f => e.1.id = f.1.id ∧ e.2.same f.2 = true) r.entries s.entries

section Among
variable {ns : List Node}

theorem identified_of_subset (hids : (ns.map Node.id).Nodup) (hr : r.keys ⊆ ns) :
    r.Identified := by
  apply List.Nodup.map_on _ r.keys_nodup
  intro m hm n hn hid
  exact List.inj_on_of_nodup_map hids (hr hm) (hr hn) hid

theorem namedAlike_of_subset (hids : (ns.map Node.id).Nodup) (hr : r.keys ⊆ ns)
    (hs : s.keys ⊆ ns) : r.NamedAlike s := by
  intro m hm n hn hid
  rw [List.inj_on_of_nodup_map hids (hr hm) (hs hn) hid]

end Among

theorem NamedAlike.text_eq_iff (h : r.NamedAlike s) : r.text = s.text ↔ r.Tallies s := by
  rw [text_inj, Tallies]
  constructor
  · intro htext
    exact htext.imp fun e f hef => ⟨hef.1.2, hef.2⟩
  · intro htallies
    rw [List.forall₂_iff_zip] at htallies ⊢
    refine ⟨htallies.1, ?_⟩
    intro e f hzip
    obtain ⟨he, hf⟩ := List.of_mem_zip hzip
    obtain ⟨hid, hsame⟩ := htallies.2 hzip
    exact ⟨⟨h e.1 (r.fst_mem_keys he) f.1 (s.fst_mem_keys hf) hid, hid⟩, hsame⟩

/-- Nothing is lost in the text of a report: all its members stand in it, and reports whose nodes
are named alike have the same text when they say the same. -/
theorem text_lossless : (∀ r : Report, r.Identified → r.Legible) ∧
    ∀ r s : Report, r.NamedAlike s → (r.text = s.text ↔ r.Tallies s) :=
  ⟨fun _ hr => hr.legible, fun _ _ h => h.text_eq_iff⟩

end Report

namespace Sample

/-- Nodes whose names look like labels, need escapes or are equal to each other. -/
def named : List Node :=
  [⟨1, "a#1", false⟩, ⟨11, "a", true⟩, ⟨2, "a", false⟩, ⟨0, "\"\\\né", false⟩]

def failed (f : Failure) : Report :=
  OrderedMap.ofList (named.zip [.proceed none, .proceed (some false), .skip, .abort f])

theorem named_ids_nodup : (named.map Node.id).Nodup := by decide

theorem failed_identified (f : Failure) : (failed f).Identified :=
  Report.identified_of_subset named_ids_nodup (List.Subset.refl named)

theorem failed_namedAlike (f g : Failure) : (failed f).NamedAlike (failed g) :=
  Report.namedAlike_of_subset named_ids_nodup (List.Subset.refl named) (List.Subset.refl named)

/-- A failure, and one with the same message that tells what is behind it. -/
def alone : Report := failed ⟨"no", []⟩

def caused : Report := failed ⟨"no", ["disk"]⟩

end Sample

open Sample in
theorem text_lossless_sample : (alone.Identified ∧ alone.NamedAlike caused) ∧
    alone.Legible ∧ (alone.text = caused.text ↔ alone.Tallies caused) :=
  ⟨⟨failed_identified _, failed_namedAlike _ _⟩,
    Report.text_lossless.1 alone (failed_identified _),
    Report.text_lossless.2 alone caused (failed_namedAlike _ _)⟩

example : Sample.named.map Node.text = ["a#1#1", "a#11", "a#2", "\"\\\né#0"] := by decide +kernel

namespace Run
variable {p : Plan}

theorem report_keys_subset (body : Node → Body) (c : Context) :
    (compute body (ofPlan p c)).2.report.keys ⊆ p.nodes := fun _ hn =>
  mem_nodes_of_report p body c hn

/-- Nodes that are told apart by their identities are so in the reports on them. -/
theorem report_identified (hids : (p.nodes.map Node.id).Nodup) (body : Node → Body) (c : Context) :
    (compute body (ofPlan p c)).2.report.Identified :=
  Report.identified_of_subset hids (report_keys_subset body c)

/-- The report of a run is known from its text, and two runs of a plan have reports with the same
text when they came to the same outcomes in the same order. -/
theorem report_text (hids : (p.nodes.map Node.id).Nodup) (body body' : Node → Body)
    (c d : Context) : (compute body (ofPlan p c)).2.report.Legible ∧
      ((compute body (ofPlan p c)).2.report.text = (compute body' (ofPlan p d)).2.report.text ↔
        (compute body (ofPlan p c)).2.report.Tallies (compute body' (ofPlan p d)).2.report) := by
  have hnamed := Report.namedAlike_of_subset hids (report_keys_subset body c)
    (report_keys_subset body' d)
  exact ⟨(report_identified hids body c).legible, hnamed.text_eq_iff⟩

end Run
end Workflow
