import Mathlib.Data.List.Induction
import Workflow.OrderedMap
import Workflow.Proofs.ReadBack

/-!
# Values with sorted keys

A value that is read keeps the members of its objects sorted by key, at every depth, and nests no
deeper than the reader allows. Sorting the keys of such a value changes nothing, so that it comes
back from its text as it is.
-/

namespace Workflow.Json

set_option autoImplicit false

theorem lt_of_not_lt_of_ne {s t : String} (h : ¬ s < t) (hne : s ≠ t) : t < s := by
  by_contra hlt
  exact hne (String.le_antisymm (String.not_lt.mp hlt) (String.not_lt.mp h))

/-- The keys of members ascend by code points, so that each occurs once. -/
def Ascending (ms : List (String × Json)) : Prop := ms.Pairwise fun m n => m.1 < n.1

/-- At every depth the members of objects ascend, as they do in every value that is read. -/
inductive KeysSorted : Json → Prop where
  | null : KeysSorted .null
  | bool (b : Bool) : KeysSorted (.bool b)
  | int (n : Int) : KeysSorted (.int n)
  | float (x : Float) : KeysSorted (.float x)
  | str (s : String) : KeysSorted (.str s)
  | arr {xs : List Json} (items : ∀ x ∈ xs, KeysSorted x) : KeysSorted (.arr xs)
  | obj {ms : List (String × Json)} (ascending : Ascending ms)
      (members : ∀ m ∈ ms, KeysSorted m.2) : KeysSorted (.obj ms)

variable {ms : List (String × Json)} {k : String} {v : Json}

theorem Ascending.insertMember (h : Ascending ms) (k : String) (v : Json) :
    Ascending (insertMember k v ms) := by
  induction ms with
  | nil => exact List.pairwise_singleton _ _
  | cons m ms ih =>
    obtain ⟨l, w⟩ := m
    obtain ⟨hl, hms⟩ := List.pairwise_cons.mp h
    rw [Json.insertMember]
    split
    · rename_i hkl
      refine List.pairwise_cons.mpr ⟨?_, h⟩
      intro n hn
      rcases List.mem_cons.mp hn with rfl | hn
      · exact hkl
      · exact String.lt_trans hkl (hl n hn)
    · split
      · rename_i hkl
        subst hkl
        exact List.pairwise_cons.mpr ⟨hl, hms⟩
      · rename_i hkl hne
        refine List.pairwise_cons.mpr ⟨?_, ih hms⟩
        intro n hn
        rcases (insertMember_keys k v ms n.1).mp (List.mem_map_of_mem hn) with hk | hn
        · exact hk ▸ lt_of_not_lt_of_ne hkl hne
        · obtain ⟨o, ho, hon⟩ := List.mem_map.mp hn
          exact hon ▸ hl o ho

theorem lookup_cons_eq (j l : String) (w : Json) (ms : List (String × Json)) :
    ((l, w) :: ms).lookup j = if j = l then some w else ms.lookup j := by
  rw [List.lookup_cons]
  by_cases h : j = l
  · simp [h]
  · simp [beq_eq_false_iff_ne.mpr h, h]

theorem lookup_insertMember (k j : String) (v : Json) (ms : List (String × Json)) :
    (insertMember k v ms).lookup j = if j = k then some v else ms.lookup j := by
  induction ms with
  | nil => exact lookup_cons_eq j k v []
  | cons m ms ih =>
    obtain ⟨l, w⟩ := m
    rw [insertMember, lookup_cons_eq]
    split
    · rw [lookup_cons_eq, lookup_cons_eq]
    · split
      · rename_i hkl
        subst hkl
        rw [lookup_cons_eq]
        split <;> rfl
      · rename_i hne
        rw [lookup_cons_eq, ih]
        by_cases h : j = k
        · subst h
          rw [if_neg hne, if_pos rfl, if_pos rfl]
        · rw [if_neg h, if_neg h]

theorem insertMember_of_lt (h : ∀ m ∈ ms, m.1 < k) : insertMember k v ms = ms ++ [(k, v)] := by
  induction ms with
  | nil => rfl
  | cons m ms ih =>
    have hm := h m List.mem_cons_self
    have hne : k ≠ m.1 := fun heq => String.lt_irrefl k (by rw [heq] at hm ⊢; exact hm)
    rw [insertMember, if_neg (String.lt_asymm hm), if_neg hne,
      ih fun n hn => h n (List.mem_cons_of_mem m hn), List.cons_append]

theorem sortMembers_concat (ms : List (String × Json)) (m : String × Json) :
    sortMembers (ms ++ [m]) = insertMember m.1 m.2 (sortMembers ms) := by
  simp [sortMembers]

theorem sortMembers_ascending (ms : List (String × Json)) : Ascending (sortMembers ms) := by
  induction ms using List.reverseRecOn with
  | nil => exact .nil
  | append_singleton ms m ih =>
    rw [sortMembers_concat]
    exact ih.insertMember m.1 m.2

theorem lookup_sortMembers (ms : List (String × Json)) (k : String) :
    (sortMembers ms).lookup k = (OrderedMap.ofList ms).get? k := by
  induction ms using List.reverseRecOn with
  | nil => rfl
  | append_singleton ms m ih =>
    rw [sortMembers_concat, OrderedMap.ofList_concat, lookup_insertMember,
      OrderedMap.get?_insert, ih]

theorem Ascending.sortMembers_eq (h : Ascending ms) : sortMembers ms = ms := by
  induction ms using List.reverseRecOn with
  | nil => rfl
  | append_singleton ms m ih =>
    obtain ⟨hms, -, hm⟩ := List.pairwise_append.mp h
    rw [sortMembers_concat, ih hms,
      insertMember_of_lt fun n hn => hm n hn m (List.mem_singleton_self m)]

theorem Ascending.nodup (h : Ascending ms) : (ms.map Prod.fst).Nodup := by
  apply List.Pairwise.map _ _ h
  rintro m n hlt heq
  exact String.lt_irrefl n.1 (heq ▸ hlt)

theorem KeysSorted.sortKeys_eq (h : KeysSorted v) : v.sortKeys = v := by
  induction h with
  | null => rfl
  | bool b => rfl
  | int n => rfl
  | float x => rfl
  | str s => rfl
  | @arr xs items ih =>
    rw [sortKeys, sortKeysItems_eq_map, List.map_congr_left ih, List.map_id']
  | @obj ms ascending members ih =>
    have hms : ms.map (fun m => (m.1, m.2.sortKeys)) = ms :=
      (List.map_congr_left fun m hm => by rw [ih m hm]).trans (List.map_id' ms)
    rw [sortKeys, sortKeysMembers_eq_map, hms, ofMembers, ascending.sortMembers_eq]

theorem mem_of_mem_insertMember {m : String × Json} (h : m ∈ insertMember k v ms) :
    m = (k, v) ∨ m ∈ ms := by
  induction ms with
  | nil => exact .inl (List.mem_singleton.mp h)
  | cons n ms ih =>
    rw [insertMember] at h
    split at h
    · exact List.mem_cons.mp h
    · split at h
      · exact (List.mem_cons.mp h).imp_right (List.mem_cons_of_mem n)
      · rcases List.mem_cons.mp h with rfl | h
        · exact .inr List.mem_cons_self
        · exact (ih h).imp_right (List.mem_cons_of_mem n)

theorem mem_of_mem_sortMembers {m : String × Json} (h : m ∈ sortMembers ms) : m ∈ ms := by
  induction ms using List.reverseRecOn with
  | nil => exact h
  | append_singleton ms n ih =>
    rw [sortMembers_concat] at h
    rcases mem_of_mem_insertMember h with rfl | h
    · exact List.mem_append_right ms (List.mem_singleton_self _)
    · exact List.mem_append_left [n] (ih h)

section Reading
variable {α β : Type} {P : α → Prop} {Q : β → Prop}

/-- Whatever is read has the property. -/
def Gives (P : α → Prop) (r : Except Malformed (α × List Char)) : Prop :=
  ∀ x rest, r = .ok (x, rest) → P x

theorem gives_error (e : Malformed) : Gives P (.error e) := by
  intro x rest h
  cases h

theorem gives_ok {x : α} (h : P x) (rest : List Char) : Gives P (.ok (x, rest)) := by
  intro y rest' heq
  cases heq
  exact h

theorem Gives.bind {r : Except Malformed (α × List Char)} (h : Gives P r)
    {f : α × List Char → Except Malformed (β × List Char)}
    (hf : ∀ x rest, P x → Gives Q (f (x, rest))) : Gives Q (r >>= f) := by
  cases r with
  | error e => exact gives_error e
  | ok p => exact hf p.1 p.2 (h p.1 p.2 rfl)

theorem Gives.finish {r : Except Malformed (α × List Char)} (h : Gives P r) {x : α}
    (hx : finish r = .ok x) : P x := by
  cases r with
  | error e => cases hx
  | ok p =>
    rw [Json.finish] at hx
    split at hx
    · cases hx
      exact h p.1 p.2 rfl
    · cases hx

theorem readItems_gives {item : List Char → Except Malformed (α × List Char)}
    (hitem : ∀ cs, Gives P (item cs)) (close : Char) (n : Nat) (cs : List Char) :
    Gives (fun xs => ∀ x ∈ xs, P x) (readItems item close n cs) := by
  induction n generalizing cs with
  | zero => exact gives_error _
  | succ n ih =>
    rw [readItems]
    refine (hitem cs).bind fun x rest hx => ?_
    dsimp only
    split
    · exact gives_error _
    · split
      · exact (ih _).bind fun xs rest hxs => gives_ok (List.forall_mem_cons.mpr ⟨hx, hxs⟩) rest
      · split
        · exact gives_ok (List.forall_mem_singleton.mpr hx) _
        · exact gives_error _

theorem readBetween_gives {item : List Char → Except Malformed (α × List Char)}
    (hitem : ∀ cs, Gives P (item cs)) (close : Char) (cs : List Char) :
    Gives (fun xs => ∀ x ∈ xs, P x) (readBetween item close cs) := by
  rw [readBetween]
  split
  · exact gives_error _
  · split
    · exact gives_ok (List.forall_mem_nil _) _
    · exact readItems_gives hitem close _ cs

end Reading

theorem expected_gives {α : Type} {P : α → Prop} (cs : List Char) : Gives P (expected cs) := by
  cases cs <;> exact gives_error _

theorem gives_any {α : Type} (r : Except Malformed (α × List Char)) : Gives (fun _ => True) r :=
  fun _ _ _ => trivial

theorem readMember_gives {P : Json → Prop} {value : List Char → Except Malformed (Json × List Char)}
    (hvalue : ∀ cs, Gives P (value cs)) (cs : List Char) :
    Gives (fun m => P m.2) (readMember value cs) := by
  rw [readMember]
  split
  · refine (gives_any _).bind fun k rest _ => ?_
    dsimp only
    split
    · refine (hvalue _).bind fun v rest hv => ?_
      exact gives_ok (P := fun m : String × Json => P m.2) hv rest
    · exact expected_gives _
  · exact expected_gives _

/-- A value as the reader leaves it. -/
structure Tidy (d : Nat) (v : Json) : Prop where
  keysSorted : v.KeysSorted
  depth_le : v.depth ≤ d

variable {d : Nat}

theorem readNumber_gives (d : Nat) (cs : List Char) : Gives (Tidy d) (readNumber cs) := by
  refine (gives_any _).bind fun whole cs _ => ?_
  refine (gives_any _).bind fun fraction cs _ => ?_
  refine (gives_any _).bind fun exponent cs _ => ?_
  dsimp only
  unfold ofLiteral
  split
  · exact gives_ok ⟨.int _, Nat.zero_le d⟩ _
  · split
    · exact gives_ok ⟨.float _, Nat.zero_le d⟩ _
    · exact gives_error _

theorem readScalar_gives (d : Nat) (cs : List Char) : Gives (Tidy d) (readScalar cs) := by
  unfold readScalar
  split
  · exact gives_ok ⟨.null, Nat.zero_le d⟩ _
  · exact gives_ok ⟨.bool true, Nat.zero_le d⟩ _
  · exact gives_ok ⟨.bool false, Nat.zero_le d⟩ _
  · exact (gives_any _).bind fun k rest _ => gives_ok ⟨.str _, Nat.zero_le d⟩ rest
  · exact readNumber_gives d _
  · split
    · exact readNumber_gives d _
    · exact gives_error _
  · exact gives_error _

theorem Tidy.arr {xs : List Json} (h : ∀ x ∈ xs, Tidy d x) : Tidy (d + 1) (.arr xs) :=
  ⟨.arr fun x hx => (h x hx).keysSorted,
    Nat.succ_le_succ (depthItems_le fun x hx => (h x hx).depth_le)⟩

theorem Tidy.ofMembers (h : ∀ m ∈ ms, Tidy d m.2) : Tidy (d + 1) (ofMembers ms) := by
  have hsorted : ∀ m ∈ sortMembers ms, Tidy d m.2 := fun m hm => h m (mem_of_mem_sortMembers hm)
  exact ⟨.obj (sortMembers_ascending ms) fun m hm => (hsorted m hm).keysSorted,
    Nat.succ_le_succ (depthMembers_le fun m hm => (hsorted m hm).depth_le)⟩

theorem readValue_gives (d : Nat) (cs : List Char) : Gives (Tidy d) (readValue d cs) := by
  induction d generalizing cs with
  | zero =>
    rw [readValue]
    split
    · exact gives_error _
    · exact gives_error _
    · exact readScalar_gives 0 _
  | succ d ih =>
    rw [readValue]
    split
    · exact (readBetween_gives ih ']' _).bind fun xs rest hxs => gives_ok (.arr hxs) rest
    · exact (readBetween_gives (readMember_gives ih) '}' _).bind fun ms rest hms =>
        gives_ok (.ofMembers hms) rest
    · exact readScalar_gives (d + 1) _

theorem tidy_of_ofText {s : String} (h : ofText s = .ok v) : Tidy maxDepth v :=
  (readValue_gives maxDepth s.toList).finish h

end Workflow.Json
