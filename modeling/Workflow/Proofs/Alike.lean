import Mathlib.Data.List.Nodup
import Workflow.Proofs.Perform

/-!
# Equality up to the order of the keys

Two ordered maps are alike when they hold the same entries in whatever order. Bodies that respect
alike contexts do the same on all of them, and bodies that commute can run in either order.
-/

namespace Workflow

set_option autoImplicit false

namespace OrderedMap
variable {κ υ : Type} {m n o : OrderedMap κ υ}

/-- The same entries, possibly in another order. -/
def Alike (m n : OrderedMap κ υ) : Prop := m.entries.Perm n.entries

theorem Alike.refl (m : OrderedMap κ υ) : m.Alike m := List.Perm.refl _

theorem Alike.trans (h : m.Alike n) (h' : n.Alike o) : m.Alike o := List.Perm.trans h h'

theorem Alike.size_eq (h : m.Alike n) : m.size = n.size := List.Perm.length_eq h

variable [DecidableEq κ]

theorem alike_iff_get? : m.Alike n ↔ ∀ k, m.get? k = n.get? k := by
  constructor
  · intro h k
    apply Option.ext
    intro v
    rw [get?_eq_some_iff, get?_eq_some_iff]
    exact h.mem_iff
  · intro h
    apply (List.perm_ext_iff_of_nodup m.nodup.of_map n.nodup.of_map).mpr
    intro ⟨k, v⟩
    rw [← get?_eq_some_iff, ← get?_eq_some_iff, h]

theorem Alike.insert (h : m.Alike n) (k : κ) (v : υ) : (m.insert k v).Alike (n.insert k v) := by
  rw [alike_iff_get?] at h ⊢
  intro j
  rw [get?_insert, get?_insert, h]

theorem Alike.erase (h : m.Alike n) (k : κ) : (m.erase k).Alike (n.erase k) := List.Perm.filter _ h

theorem insert_insert_alike (m : OrderedMap κ υ) {j k : κ} (h : j ≠ k) (v w : υ) :
    ((m.insert j v).insert k w).Alike ((m.insert k w).insert j v) := by
  rw [alike_iff_get?]
  intro i
  simp only [get?_insert]
  by_cases hk : i = k
  · have hj : i ≠ j := fun e => h (e ▸ hk)
    rw [if_pos hk, if_neg hj, if_pos hk]
  · rw [if_neg hk, if_neg hk]

end OrderedMap

namespace Outcome

/-- Failures with equal messages apart, the same outcomes are equal. -/
theorem eq_of_same {o o' : Outcome} (h : o.same o' = true) (ho : o.isAbort = false) : o = o' := by
  cases o <;> cases o' <;> simp_all [same, isAbort]

end Outcome

namespace Body

/-- The same outcome and alike contexts, on alike contexts. -/
def Respects (b : Body) : Prop :=
  ∀ c d : Context, c.Alike d → (b c).1.same (b d).1 = true ∧ (b c).2.Alike (b d).2

/-- The same two outcomes and alike contexts, in either order. -/
def Commutes (a b : Body) : Prop :=
  ∀ c : Context, (a c).1.same (a (b c).2).1 = true ∧ (b (a c).2).1.same (b c).1 = true ∧
    (b (a c).2).2.Alike (a (b c).2).2

theorem respects_skipped : Respects skipped := by
  intro c d h
  exact ⟨rfl, h⟩

theorem commutes_skipped_left (b : Body) : Commutes skipped b := by
  intro c
  exact ⟨rfl, Outcome.same_refl _, .refl _⟩

theorem commutes_skipped_right (b : Body) : Commutes b skipped := by
  intro c
  exact ⟨Outcome.same_refl _, rfl, .refl _⟩

end Body

section Resolve
variable {d : Draft} {body : Node → Body} {r : Report} {m n : Node}

theorem respects_resolve (h : (body n).Respects) : (d.resolve body r n).Respects := by
  unfold Draft.resolve
  split
  · exact h
  · exact Body.respects_skipped

theorem commutes_resolve (h : (body m).Commutes (body n)) :
    (d.resolve body r m).Commutes (d.resolve body r n) := by
  unfold Draft.resolve
  split
  · split
    · exact h
    · exact Body.commutes_skipped_right _
  · exact Body.commutes_skipped_left _

end Resolve
end Workflow
