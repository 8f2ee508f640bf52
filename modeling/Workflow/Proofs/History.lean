import Mathlib.Data.List.Nodup
import Mathlib.Data.Set.Card
import Workflow.Context.Change

/-!
# Contexts by their history

What a context holds, and in which order, read off the list of all the changes that were made to it.
The last write of a key decides on its value and a later deletion takes it away; the place of a key
goes by the write that last brought it in, which later writes to it do not move.
-/

namespace Workflow

set_option autoImplicit false

namespace History

/-- The last write of a key puts this value, and these are the changes after it. -/
def LastWrite (h : List Change) (k : String) (v : Json) (later : List Change) : Prop :=
  ∃ before x, h = before ++ x :: later ∧ x.written k = some v ∧ ∀ y ∈ later, y.written k = none

/-- The last write of a key puts this value and no deletion of the key comes after it. -/
def Holds (h : List Change) (k : String) (v : Json) : Prop :=
  ∃ later, LastWrite h k v later ∧ .delete k ∉ later

def Present (h : List Change) (k : String) : Prop := ∃ v, Holds h k v

/-- The change at this place writes a key that was absent, and no later one does. -/
structure ArrivesAt (h : List Change) (k : String) (i : Nat) : Prop where
  writes : ∃ x v, h[i]? = some x ∧ x.written k = some v
  absent : ¬ Present (h.take i) k
  last : ∀ j x v, i < j → h[j]? = some x → x.written k = some v → Present (h.take j) k

def ArrivesBefore (h : List Change) (j k : String) : Prop :=
  ∃ i i', ArrivesAt h j i ∧ ArrivesAt h k i' ∧ i < i'

variable {h : List Change} {x : Change} {j k : String} {v : Json} {i : Nat}

theorem not_holds_nil : ¬ Holds [] k v := by
  rintro ⟨later, ⟨before, x, heq, -⟩, -⟩
  simp at heq

theorem holds_concat_iff : Holds (h ++ [x]) k v ↔
    x.written k = some v ∨ (x.written k = none ∧ x ≠ .delete k ∧ Holds h k v) := by
  constructor
  · rintro ⟨later, ⟨before, y, heq, hy, hlater⟩, hdelete⟩
    rcases List.eq_nil_or_concat later with rfl | ⟨front, z, rfl⟩
    · obtain ⟨-, rfl⟩ := List.append_singleton_inj.mp heq
      exact .inl hy
    · rw [List.concat_eq_append, ← List.cons_append, ← List.append_assoc] at heq
      obtain ⟨rfl, rfl⟩ := List.append_singleton_inj.mp heq
      simp only [List.concat_eq_append, List.mem_append, List.mem_singleton,
        not_or] at hlater hdelete
      refine .inr ⟨hlater x (.inr rfl), fun hx => hdelete.2 hx.symm, front, ?_, hdelete.1⟩
      exact ⟨before, y, rfl, hy, fun w hw => hlater w (.inl hw)⟩
  · rintro (hx | ⟨hx, hne, later, ⟨before, y, rfl, hy, hlater⟩, hdelete⟩)
    · have hnone : ∀ y ∈ ([] : List Change), y.written k = none := List.forall_mem_nil _
      exact ⟨[], ⟨h, x, rfl, hx, hnone⟩, List.not_mem_nil⟩
    · refine ⟨later ++ [x], ⟨before, y, by simp, hy, ?_⟩, ?_⟩
      · intro w hw
        rcases List.mem_append.mp hw with hw | hw
        · exact hlater w hw
        · exact List.mem_singleton.mp hw ▸ hx
      · simp only [List.mem_append, List.mem_singleton, not_or]
        exact ⟨hdelete, fun hx => hne hx.symm⟩

theorem ArrivesAt.lt_length (ha : ArrivesAt h k i) : i < h.length := by
  obtain ⟨x, v, hx, -⟩ := ha.writes
  exact (List.getElem?_eq_some_iff.mp hx).1

/-- Of two places the later would write a key that is there since the earlier. -/
theorem ArrivesAt.le (ha : ArrivesAt h k i) {i' : Nat} (ha' : ArrivesAt h k i') : i' ≤ i := by
  by_contra hlt
  obtain ⟨x, v, hx, hv⟩ := ha'.writes
  exact ha'.absent (ha.last i' x v (by omega) hx hv)

theorem ArrivesAt.unique (ha : ArrivesAt h k i) {i' : Nat} (ha' : ArrivesAt h k i') : i = i' :=
  Nat.le_antisymm (ha'.le ha) (ha.le ha')

/-- A present key keeps its place whatever comes next. -/
theorem ArrivesAt.concat (ha : ArrivesAt h k i) (hk : Present h k) : ArrivesAt (h ++ [x]) k i := by
  have hi := ha.lt_length
  refine ⟨?_, ?_, ?_⟩
  · rw [List.getElem?_append_left hi]
    exact ha.writes
  · rw [List.take_append_of_le_length hi.le]
    exact ha.absent
  · intro j y v hij hy hv
    have hj : j < h.length + 1 := by simpa using (List.getElem?_eq_some_iff.mp hy).1
    rw [List.take_append_of_le_length (by omega)]
    by_cases hlast : j = h.length
    · rw [hlast, List.take_length]
      exact hk
    · rw [List.getElem?_append_left (by omega)] at hy
      exact ha.last j y v hij hy hv

/-- A write of an absent key brings it in at the end. -/
theorem arrivesAt_length (hx : x.written k = some v) (hk : ¬ Present h k) :
    ArrivesAt (h ++ [x]) k h.length := by
  refine ⟨⟨x, v, by simp, hx⟩, by simpa using hk, ?_⟩
  intro j y w hj hy
  have := (List.getElem?_eq_some_iff.mp hy).1
  simp only [List.length_append, List.length_singleton] at this
  omega

theorem ArrivesBefore.concat (hjk : ArrivesBefore h j k) (hj : Present h j) (hk : Present h k) :
    ArrivesBefore (h ++ [x]) j k := by
  obtain ⟨i, i', hi, hi', hlt⟩ := hjk
  exact ⟨i, i', hi.concat hj, hi'.concat hk, hlt⟩

end History

namespace Context
open History
variable (h : List Change)

theorem read_after_iff (k : String) (v : Json) : (after ∅ h).read k = some v ↔ Holds h k v := by
  induction h using List.reverseRecOn generalizing v with
  | nil => exact ⟨nofun, fun hv => absurd hv not_holds_nil⟩
  | append_singleton h x ih =>
    rw [after_concat, holds_concat_iff, ← ih]
    rcases change_cases (after ∅ h) x with ⟨j, w, hw, hne, hc⟩ | ⟨j, rfl, hc⟩ | ⟨j, e, rfl, hc⟩
    · rw [hc, read_store, hw]
      by_cases hk : k = j <;> simp [hk, hne]
    · have herase := read_delete (after ∅ h) j k
      dsimp only [delete] at herase
      rw [hc, herase]
      by_cases hk : k = j
      · simp [hk, Change.written]
      · simp [hk, Ne.symm hk, Change.written]
    · rw [hc]
      simp [Change.written]

theorem mem_keys_after_iff (k : String) : k ∈ (after ∅ h).keys ↔ Present h k := by
  rw [← OrderedMap.get?_isSome_iff, Option.isSome_iff_exists]
  exact exists_congr fun v => read_after_iff h k v

/-- Every key came in by some write, and the keys stand in the order in which they came in. -/
theorem keys_after_arrived :
    (∀ k ∈ (after ∅ h).keys, ∃ i, ArrivesAt h k i) ∧
      (after ∅ h).keys.Pairwise (ArrivesBefore h) := by
  induction h using List.reverseRecOn with
  | nil => exact ⟨nofun, .nil⟩
  | append_singleton h x ih =>
    obtain ⟨harrive, hordered⟩ := ih
    -- the keys that were there have their places as before
    have hkeep : ∀ k ∈ (after ∅ h).keys, ∃ i, ArrivesAt (h ++ [x]) k i := by
      intro k hk
      obtain ⟨i, hi⟩ := harrive k hk
      exact ⟨i, hi.concat ((mem_keys_after_iff h k).mp hk)⟩
    have hstill : (after ∅ h).keys.Pairwise (ArrivesBefore (h ++ [x])) := by
      apply hordered.imp_of_mem
      intro j k hj hk hjk
      exact hjk.concat ((mem_keys_after_iff h j).mp hj) ((mem_keys_after_iff h k).mp hk)
    rw [after_concat]
    rcases change_cases (after ∅ h) x with ⟨k, v, hw, _, hc⟩ | ⟨k, rfl, hc⟩ | ⟨k, e, rfl, hc⟩
    · rw [hc]
      dsimp only [store]
      rw [OrderedMap.keys_insert]
      split
      · exact ⟨hkeep, hstill⟩
      · rename_i hk
        have hnew : ArrivesAt (h ++ [x]) k h.length :=
          arrivesAt_length (by rw [hw, if_pos rfl]) (mt (mem_keys_after_iff h k).mpr hk)
        refine ⟨?_, List.pairwise_append.mpr ⟨hstill, List.pairwise_singleton _ _, ?_⟩⟩
        · intro j hj
          rcases List.mem_append.mp hj with hj | hj
          · exact hkeep j hj
          · exact List.mem_singleton.mp hj ▸ ⟨_, hnew⟩
        · intro j hj l hl
          obtain ⟨i, hi⟩ := harrive j hj
          rw [List.mem_singleton.mp hl]
          exact ⟨i, h.length, hi.concat ((mem_keys_after_iff h j).mp hj), hnew, hi.lt_length⟩
    · rw [hc, OrderedMap.keys_erase]
      exact ⟨fun j hj => hkeep j (List.mem_of_mem_filter hj), hstill.filter _⟩
    · rw [hc]
      exact ⟨hkeep, hstill⟩

theorem len_after : (after ∅ h).len = {k | Present h k}.ncard := by
  have hset : {k | Present h k} = ((after ∅ h).keys.toFinset : Set String) := by
    ext k
    rw [List.coe_toFinset]
    exact (mem_keys_after_iff h k).symm
  rw [hset, Set.ncard_coe_finset, List.toFinset_card_of_nodup (after ∅ h).keys_nodup,
    OrderedMap.keys_length]
  rfl

/-- A context that is what its history makes of it. -/
structure Recounts (h : List Change) (c : Context) : Prop where
  haveKey_iff : ∀ k, c.haveKey k = true ↔ Present h k
  read_iff : ∀ k v, c.read k = some v ↔ Holds h k v
  deleted : ∀ k, (c.change (.delete k)).1 = .deleted (c.read k)
  listed : ∀ k v, (k, v) ∈ c.entries ↔ c.read k = some v
  once : c.keys.Nodup
  arrived : ∀ k ∈ c.keys, ∃! i, ArrivesAt h k i
  ordered : c.keys.Pairwise (ArrivesBefore h)
  len_eq : c.len = {k | Present h k}.ncard
  /-- A value that cannot be encoded leaves the values and their order alone. -/
  refused : ∀ k e, c.change (.storeEncoded k (.error e)) = (.refused e, c)

/-- A context that was collected from pairs and then changed is what storing the pairs and making
the changes, one after another, has made of it. -/
theorem recounts (es : List (String × Json)) (xs : List Change) :
    Recounts ((es.map fun e => .store e.1 e.2) ++ xs) (after (OrderedMap.ofList es) xs) := by
  rw [ofList_eq_after, ← after_append]
  generalize (es.map fun e => Change.store e.1 e.2) ++ xs = h
  obtain ⟨harrive, hordered⟩ := keys_after_arrived h
  refine ⟨?_, read_after_iff h, fun _ => rfl, ?_, (after ∅ h).keys_nodup, ?_, hordered, len_after h,
    fun _ _ => rfl⟩
  · intro k
    rw [haveKey, OrderedMap.contains_iff]
    exact mem_keys_after_iff h k
  · intro k v
    exact OrderedMap.get?_eq_some_iff.symm
  · intro k hk
    obtain ⟨i, hi⟩ := harrive k hk
    exact ⟨i, hi, fun j hj => hj.unique hi⟩

example : (after (OrderedMap.ofList [("a", .null), ("b", .null), ("a", .bool true)])
    [.delete "b", .store "c" .null, .store "b" .null, .store "c" (.int 1)]).keys =
      ["a", "c", "b"] := by
  decide +kernel

end Context
end Workflow
