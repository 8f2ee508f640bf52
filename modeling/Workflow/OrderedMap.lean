/-!
Finite maps that remember the order in which their keys arrived. Storing a present key keeps its
place, erasing closes the gap, and a key that was erased and stored again goes last. Two views
determine a map: `get?` says what it holds, `keys` in which order.
-/

namespace Workflow

set_option autoImplicit false

/-- A list of entries in which no key occurs twice. -/
structure OrderedMap (κ υ : Type) where
  entries : List (κ × υ)
  nodup : (entries.map Prod.fst).Nodup

namespace OrderedMap
variable {κ υ : Type}

@[ext] theorem ext {m n : OrderedMap κ υ} (h : m.entries = n.entries) : m = n := by
  cases m; cases n; simpa using h

def empty : OrderedMap κ υ := ⟨[], .nil⟩

instance : EmptyCollection (OrderedMap κ υ) := ⟨empty⟩
instance : Inhabited (OrderedMap κ υ) := ⟨empty⟩

def keys (m : OrderedMap κ υ) : List κ := m.entries.map Prod.fst

def size (m : OrderedMap κ υ) : Nat := m.entries.length

theorem keys_nodup (m : OrderedMap κ υ) : m.keys.Nodup := m.nodup

@[simp] theorem keys_length (m : OrderedMap κ υ) : m.keys.length = m.size := by
  simp [keys, size]

@[simp] theorem entries_empty : (∅ : OrderedMap κ υ).entries = [] := rfl

@[simp] theorem keys_empty : (∅ : OrderedMap κ υ).keys = [] := rfl

@[simp] theorem size_empty : (∅ : OrderedMap κ υ).size = 0 := rfl

theorem fst_mem_keys {m : OrderedMap κ υ} {e : κ × υ} (h : e ∈ m.entries) : e.1 ∈ m.keys :=
  List.mem_map_of_mem h

section Lookup
variable [DecidableEq κ]

def get? (m : OrderedMap κ υ) (k : κ) : Option υ := m.entries.lookup k

def contains (m : OrderedMap κ υ) (k : κ) : Bool := decide (k ∈ m.keys)

@[simp] theorem contains_iff {m : OrderedMap κ υ} {k : κ} : m.contains k = true ↔ k ∈ m.keys := by
  simp [contains]

@[simp] theorem get?_empty (k : κ) : (∅ : OrderedMap κ υ).get? k = none := rfl

private theorem lookup_eq_some_of_nodup {l : List (κ × υ)} (hl : (l.map Prod.fst).Nodup)
    {k : κ} {v : υ} : l.lookup k = some v ↔ (k, v) ∈ l := by
  induction l with
  | nil => simp
  | cons e l ih =>
    obtain ⟨a, b⟩ := e
    simp only [List.map_cons, List.nodup_cons] at hl
    rw [List.lookup_cons]
    by_cases h : k = a
    · subst h
      simp only [beq_self_eq_true, Option.some.injEq, List.mem_cons, Prod.mk.injEq, true_and]
      constructor
      · exact fun hb => .inl hb.symm
      · rintro (hv | hm)
        · exact hv.symm
        · exact absurd (List.mem_map_of_mem (f := Prod.fst) hm) hl.1
    · simp [beq_eq_false_iff_ne.mpr h, h, ih hl.2]

theorem get?_eq_some_iff {m : OrderedMap κ υ} {k : κ} {v : υ} :
    m.get? k = some v ↔ (k, v) ∈ m.entries :=
  lookup_eq_some_of_nodup m.nodup

theorem get?_isSome_iff {m : OrderedMap κ υ} {k : κ} : (m.get? k).isSome ↔ k ∈ m.keys := by
  constructor
  · intro h
    obtain ⟨v, hv⟩ := Option.isSome_iff_exists.mp h
    exact fst_mem_keys (get?_eq_some_iff.mp hv)
  · intro h
    obtain ⟨e, he, rfl⟩ := List.mem_map.mp h
    exact Option.isSome_iff_exists.mpr ⟨e.2, get?_eq_some_iff.mpr he⟩

theorem get?_eq_none_iff {m : OrderedMap κ υ} {k : κ} : m.get? k = none ↔ k ∉ m.keys := by
  rw [← get?_isSome_iff]
  cases m.get? k <;> simp

theorem contains_eq_isSome (m : OrderedMap κ υ) (k : κ) : m.contains k = (m.get? k).isSome := by
  rw [Bool.eq_iff_iff, contains_iff, get?_isSome_iff]

/-- Store a value. A present key keeps its place, a new one goes last. -/
def insert (m : OrderedMap κ υ) (k : κ) (v : υ) : OrderedMap κ υ :=
  if h : k ∈ m.keys then
    ⟨m.entries.map fun e => if e.1 = k then (k, v) else e, by
      have hfst : (Prod.fst ∘ fun e : κ × υ => if e.1 = k then (k, v) else e) = Prod.fst := by
        funext e
        by_cases he : e.1 = k <;> simp [he]
      rw [List.map_map, hfst]
      exact m.nodup⟩
  else
    ⟨m.entries ++ [(k, v)], by
      rw [List.map_append, List.nodup_append]
      refine ⟨m.nodup, by simp, ?_⟩
      intro a ha b hb
      simp only [List.map_cons, List.map_nil, List.mem_singleton] at hb
      rintro rfl
      exact h (hb ▸ ha)⟩

theorem entries_insert_of_mem {m : OrderedMap κ υ} {k : κ} (h : k ∈ m.keys) (v : υ) :
    (m.insert k v).entries = m.entries.map fun e => if e.1 = k then (k, v) else e := by
  simp [insert, h]

theorem entries_insert_of_notMem {m : OrderedMap κ υ} {k : κ} (h : k ∉ m.keys) (v : υ) :
    (m.insert k v).entries = m.entries ++ [(k, v)] := by
  simp [insert, h]

theorem keys_insert (m : OrderedMap κ υ) (k : κ) (v : υ) :
    (m.insert k v).keys = if k ∈ m.keys then m.keys else m.keys ++ [k] := by
  by_cases h : k ∈ m.keys
  · rw [if_pos h, keys, entries_insert_of_mem h, keys, List.map_map]
    congr 1
    funext e
    by_cases he : e.1 = k <;> simp [he]
  · rw [if_neg h, keys, entries_insert_of_notMem h]
    simp [keys]

theorem mem_keys_insert {m : OrderedMap κ υ} {k j : κ} {v : υ} :
    j ∈ (m.insert k v).keys ↔ j = k ∨ j ∈ m.keys := by
  rw [keys_insert]
  split <;> grind

theorem mem_entries_insert {m : OrderedMap κ υ} {k j : κ} {v w : υ} :
    (j, w) ∈ (m.insert k v).entries ↔ (j = k ∧ w = v) ∨ (j ≠ k ∧ (j, w) ∈ m.entries) := by
  by_cases h : k ∈ m.keys
  · rw [entries_insert_of_mem h, List.mem_map]
    constructor
    · rintro ⟨e, he, heq⟩
      by_cases hk : e.1 = k
      · simp only [hk, if_true, Prod.mk.injEq] at heq
        exact .inl ⟨heq.1.symm, heq.2.symm⟩
      · simp only [hk, if_false] at heq
        subst heq
        exact .inr ⟨hk, he⟩
    · rintro (⟨rfl, rfl⟩ | ⟨hne, he⟩)
      · obtain ⟨e, he, hek⟩ := List.mem_map.mp h
        exact ⟨e, he, by simp [hek]⟩
      · exact ⟨(j, w), he, by simp [hne]⟩
  · rw [entries_insert_of_notMem h, List.mem_append, List.mem_singleton, Prod.mk.injEq]
    constructor
    · rintro (he | he)
      · exact .inr ⟨fun hj => h (hj ▸ fst_mem_keys he), he⟩
      · exact .inl he
    · rintro (he | he)
      · exact .inr he
      · exact .inl he.2

@[simp] theorem get?_insert_self (m : OrderedMap κ υ) (k : κ) (v : υ) :
    (m.insert k v).get? k = some v :=
  get?_eq_some_iff.mpr (mem_entries_insert.mpr (.inl ⟨rfl, rfl⟩))

theorem get?_insert (m : OrderedMap κ υ) (k j : κ) (v : υ) :
    (m.insert k v).get? j = if j = k then some v else m.get? j := by
  by_cases h : j = k
  · subst h; simp
  · rw [if_neg h]
    refine Option.ext fun w => ?_
    rw [get?_eq_some_iff, get?_eq_some_iff, mem_entries_insert]
    simp [h]

/-- Remove a key; the entries after it move up. -/
def erase (m : OrderedMap κ υ) (k : κ) : OrderedMap κ υ :=
  ⟨m.entries.filter fun e => e.1 ≠ k, m.nodup.sublist (List.filter_sublist.map _)⟩

@[simp] theorem entries_erase (m : OrderedMap κ υ) (k : κ) :
    (m.erase k).entries = m.entries.filter fun e => e.1 ≠ k := rfl

theorem keys_erase (m : OrderedMap κ υ) (k : κ) :
    (m.erase k).keys = m.keys.filter fun j => j ≠ k := by
  simp only [keys, entries_erase, List.filter_map]
  rfl

theorem get?_erase (m : OrderedMap κ υ) (k j : κ) :
    (m.erase k).get? j = if j = k then none else m.get? j := by
  refine Option.ext fun w => ?_
  rw [get?_eq_some_iff, entries_erase, List.mem_filter]
  by_cases h : j = k <;> simp [h, get?_eq_some_iff]

theorem erase_of_notMem {m : OrderedMap κ υ} {k : κ} (h : k ∉ m.keys) : m.erase k = m := by
  apply ext
  rw [entries_erase, List.filter_eq_self]
  intro e he
  simp only [ne_eq, decide_eq_true_eq]
  rintro rfl
  exact h (fst_mem_keys he)

/-- Store the entries one after another: a repeated key has its first place and its last value. -/
def ofList (es : List (κ × υ)) : OrderedMap κ υ :=
  es.foldl (fun m e => m.insert e.1 e.2) ∅

@[simp] theorem ofList_nil : ofList ([] : List (κ × υ)) = ∅ := rfl

theorem ofList_concat (es : List (κ × υ)) (e : κ × υ) :
    ofList (es ++ [e]) = (ofList es).insert e.1 e.2 := by
  simp [ofList]

theorem mem_keys_ofList {es : List (κ × υ)} {k : κ} :
    k ∈ (ofList es).keys ↔ k ∈ es.map Prod.fst := by
  suffices h : ∀ m : OrderedMap κ υ,
      k ∈ (es.foldl (fun m e => m.insert e.1 e.2) m).keys ↔ k ∈ m.keys ∨ k ∈ es.map Prod.fst by
    simpa [ofList] using h ∅
  induction es with
  | nil => simp
  | cons e es ih =>
    intro m
    rw [List.foldl_cons, ih, mem_keys_insert, List.map_cons, List.mem_cons]
    grind

/-- Replace the value of a key by a function of it; an absent key is made. -/
def alter (m : OrderedMap κ υ) (k : κ) (f : Option υ → υ) : OrderedMap κ υ :=
  m.insert k (f (m.get? k))

theorem get?_alter (m : OrderedMap κ υ) (k j : κ) (f : Option υ → υ) :
    (m.alter k f).get? j = if j = k then some (f (m.get? k)) else m.get? j :=
  get?_insert m k j _

theorem keys_alter (m : OrderedMap κ υ) (k : κ) (f : Option υ → υ) :
    (m.alter k f).keys = if k ∈ m.keys then m.keys else m.keys ++ [k] :=
  keys_insert m k _

/-- Equality up to the order of the keys, values compared by `same`. -/
def sameBy (same : υ → υ → Bool) (m n : OrderedMap κ υ) : Bool :=
  m.size == n.size &&
    m.entries.all fun e =>
      match n.get? e.1 with
      | some v => same e.2 v
      | none => false

end Lookup

end OrderedMap
end Workflow
