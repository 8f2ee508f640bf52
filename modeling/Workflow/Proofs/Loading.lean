import Mathlib.Data.List.Nodup
import Workflow.Context.Text
import Workflow.Proofs.Alike
import Workflow.Proofs.SortedKeys

/-!
# The ways to load a context

A context can be collected from pairs, read from the text of an object, or made from a JSON value
that was read from such a text. The first two keep the order of the pairs, the last sorts the keys;
all three give the same entries, of a repeated key the last value. So a context that was written
comes back, from its text as it was and from a JSON value with its keys sorted. Contexts with
floating-point numbers are left out.
-/

namespace Workflow

set_option autoImplicit false

namespace OrderedMap
variable {κ υ : Type} [DecidableEq κ]

theorem entries_ofList {es : List (κ × υ)} (h : (es.map Prod.fst).Nodup) :
    (ofList es).entries = es := by
  induction es using List.reverseRecOn with
  | nil => rfl
  | append_singleton es e ih =>
    rw [List.map_append, List.map_singleton, ← List.concat_eq_append, List.nodup_concat] at h
    rw [ofList_concat, entries_insert_of_notMem (mt mem_keys_ofList.mp h.1), ih h.2]

theorem mem_of_mem_ofList {es : List (κ × υ)} {e : κ × υ} (h : e ∈ (ofList es).entries) :
    e ∈ es := by
  induction es using List.reverseRecOn with
  | nil => cases h
  | append_singleton es d ih =>
    rw [ofList_concat] at h
    rcases mem_entries_insert.mp h with ⟨hkey, hvalue⟩ | ⟨-, h⟩
    · exact List.mem_append_right es (List.mem_singleton.mpr (Prod.ext hkey hvalue))
    · exact List.mem_append_left [d] (ih h)

theorem ofList_entries (m : OrderedMap κ υ) : ofList m.entries = m := ext (entries_ofList m.nodup)

theorem sameBy_of_alike {same : υ → υ → Bool} {m n : OrderedMap κ υ} (h : m.Alike n)
    (hsame : ∀ e ∈ m.entries, same e.2 e.2 = true) : m.sameBy same n = true := by
  rw [sameBy, Bool.and_eq_true, beq_iff_eq, List.all_eq_true]
  refine ⟨h.size_eq, ?_⟩
  intro e he
  have hget : n.get? e.1 = some e.2 := get?_eq_some_iff.mpr (List.Perm.mem_iff h |>.mp he)
  rw [hget]
  exact hsame e he

end OrderedMap

namespace Json

variable {ms : List (String × Json)} {v : Json}

theorem sameItems_self {xs : List Json} (h : ∀ x ∈ xs, x.same x = true) :
    sameItems xs xs = true := by
  induction xs with
  | nil => rfl
  | cons x xs ih =>
    rw [sameItems, h x List.mem_cons_self, ih fun y hy => h y (List.mem_cons_of_mem x hy)]
    rfl

theorem sameMembers_self (h : ∀ m ∈ ms, m.2.same m.2 = true) : sameMembers ms ms = true := by
  induction ms with
  | nil => rfl
  | cons m ms ih =>
    rw [sameMembers, beq_self_eq_true, h m List.mem_cons_self,
      ih fun n hn => h n (List.mem_cons_of_mem m hn)]
    rfl

theorem Exact.same_self (h : Exact v) : v.same v = true := by
  induction h with
  | null => rfl
  | bool b => exact beq_self_eq_true b
  | @int n _ _ => exact beq_self_eq_true n
  | str s => exact beq_self_eq_true s
  | arr _ ih => exact sameItems_self ih
  | obj _ ih => exact sameMembers_self ih

end Json

namespace Context

/-- Pairs whose values have no floating-point numbers and leave one level of nesting to the
context. -/
def Storable (es : List (String × Json)) : Prop :=
  ∀ e ∈ es, e.2.Exact ∧ e.2.KeysSorted ∧ e.2.depth ≤ 126

/-- All that a text can be loaded as can be stored, if it has no floating-point numbers. -/
theorem storable_of_ofText {s : String} {c : Context} (h : ofText s = .ok c)
    (hexact : ∀ e ∈ c.entries, e.2.Exact) : Storable c.entries := by
  unfold ofText at h
  split at h
  · rename_i rest _
    have hmembers :=
      Json.readBetween_gives (Json.readMember_gives (Json.readValue_gives 126)) '}' rest
    split at h
    · rename_i ms hms
      cases h
      have htidy := hmembers.finish hms
      intro e he
      obtain ⟨hsorted, hdepth⟩ := htidy e (OrderedMap.mem_of_mem_ofList he)
      exact ⟨hexact e he, hsorted, hdepth⟩
    · cases h
  · cases h
  · split at h <;> cases h

/-- The text of an object is loaded as its members, stored one after another. -/
theorem ofText_text {ms : List (String × Json)} (h : ∀ m ∈ ms, m.2.Exact ∧ m.2.depth ≤ 126) :
    ofText (Json.obj ms).text =
      .ok (OrderedMap.ofList (ms.map fun m => (m.1, m.2.sortKeys))) := by
  have hmember : ∀ m ∈ ms,
      Json.ReadsBack (Json.readValue (Json.maxDepth - 1)) '}' m.2.chars m.2.sortKeys := by
    intro m hm
    obtain ⟨hexact, hdepth⟩ := h m hm
    exact Json.readsBack_of_stops (.inr rfl) fun hrest => Json.readValue_chars hexact hdepth hrest
  have hread := Json.readMembers_listed Json.sortKeys hmember []
  rw [List.append_nil] at hread
  have hbrace : Json.isBlank '{' = false := by decide
  simp only [ofText, Json.text, String.toList_ofList, Json.chars_obj, Json.skipBlanks_cons hbrace,
    hread]
  rfl

/-- The ways to load pairs from the text of the object that they make. -/
structure LoadsAlike (es : List (String × Json)) : Prop where
  /-- From the text itself: as if the pairs were stored one after another. -/
  fromText : ofText (Json.obj es).text = .ok (OrderedMap.ofList es)
  /-- Through a value that is read from the text: the same entries, sorted by key. -/
  throughValue : ∃ v d, Json.ofText (Json.obj es).text = .ok v ∧ ofJson v = .ok d ∧
    d.Alike (OrderedMap.ofList es) ∧ d.keys.Pairwise (· < ·)

/-- The ways to write a context and load it again. -/
structure ComesBack (c : Context) : Prop where
  fromText : ofText c.text = .ok c
  throughValue : ∃ d, ofJson c.toJson = .ok d ∧ d.same c = true ∧ d.Alike c ∧
    d.keys.Pairwise (· < ·)
  /-- The value that is read from the text is the one that the context is turned into. -/
  sameValue : Json.ofText c.text = .ok c.toJson

variable {es : List (String × Json)}

theorem Storable.map_sortKeys (h : Storable es) : (es.map fun e => (e.1, e.2.sortKeys)) = es :=
  (List.map_congr_left fun e he => by rw [(h e he).2.1.sortKeys_eq]).trans (List.map_id' es)

theorem Storable.ofList (h : Storable es) : Storable (OrderedMap.ofList es).entries :=
  fun e he => h e (OrderedMap.mem_of_mem_ofList he)

theorem Storable.depth_le (h : Storable es) : (Json.obj es).depth ≤ Json.maxDepth := by
  have hmembers : Json.depthMembers es ≤ 126 := Json.depthMembers_le fun e he => (h e he).2.2
  exact Nat.succ_le_succ hmembers

theorem Storable.ofText_obj (h : Storable es) :
    Json.ofText (Json.obj es).text = .ok (Json.ofMembers es) := by
  have hread := Json.ofText_text (.obj fun e he => (h e he).1) h.depth_le
  rw [Json.sortKeys, Json.sortKeysMembers_eq_map, h.map_sortKeys] at hread
  exact hread

/-- A value made of members is loaded with its keys sorted and the entries of the members. -/
theorem ofJson_ofMembers (es : List (String × Json)) : ∃ d, ofJson (Json.ofMembers es) = .ok d ∧
    d.Alike (OrderedMap.ofList es) ∧ d.keys.Pairwise (· < ·) := by
  have hascending := Json.sortMembers_ascending es
  have hentries := OrderedMap.entries_ofList hascending.nodup
  refine ⟨_, rfl, ?_, ?_⟩
  · rw [OrderedMap.alike_iff_get?]
    intro k
    rw [OrderedMap.get?, hentries, Json.lookup_sortMembers]
  · rw [OrderedMap.keys, hentries]
    exact hascending.map _ fun _ _ h => h

theorem Storable.loadsAlike (h : Storable es) : LoadsAlike es := by
  have hread := ofText_text fun e he => ⟨(h e he).1, (h e he).2.2⟩
  rw [h.map_sortKeys] at hread
  obtain ⟨d, hd, halike, hsorted⟩ := ofJson_ofMembers es
  exact ⟨hread, _, d, h.ofText_obj, hd, halike, hsorted⟩

theorem comesBack {c : Context} (h : Storable c.entries) : ComesBack c := by
  have hread := h.loadsAlike.fromText
  rw [OrderedMap.ofList_entries] at hread
  obtain ⟨d, hd, halike, hsorted⟩ := ofJson_ofMembers c.entries
  rw [OrderedMap.ofList_entries] at halike
  refine ⟨hread, ⟨d, hd, ?_, halike, hsorted⟩, h.ofText_obj⟩
  apply OrderedMap.sameBy_of_alike halike
  intro e he
  exact (h e (halike.mem_iff.mp he)).1.same_self

/-- All ways to load the same pairs give the same entries, and a context that is written comes back
whichever way it goes. -/
theorem loads_agree : (∀ es : List (String × Json), Storable es → LoadsAlike es) ∧
    ∀ c : Context, Storable c.entries → ComesBack c :=
  ⟨fun _ h => h.loadsAlike, fun _ h => comesBack h⟩

end Context

namespace Sample

/-- Lists inside one another. -/
def nested : Nat → Json
  | 0 => .null
  | n + 1 => .arr [nested n]

theorem nested_exact (n : Nat) : (nested n).Exact := by
  induction n with
  | zero => exact .null
  | succ n ih => exact .arr (List.forall_mem_singleton.mpr ih)

theorem nested_keysSorted (n : Nat) : (nested n).KeysSorted := by
  induction n with
  | zero => exact .null
  | succ n ih => exact .arr (List.forall_mem_singleton.mpr ih)

theorem nested_depth (n : Nat) : (nested n).depth = n := by
  induction n with
  | zero => rfl
  | succ n ih => rw [nested, Json.depth, Json.depthItems, Json.depthItems, ih, Nat.max_zero]

def small : Json := .int (-Int.pow 2 63)

def large : Json := .int (Int.pow 2 64 - 1)

/-- A repeated key, keys and values that need escapes, numbers at both ends and as many lists inside
one another as there may be. -/
def pairs : List (String × Json) :=
  [("b", .arr [small, large]), ("a\n\"\\é", .str "\u0001é"), ("deep", nested 126),
    ("b", .obj [("x", .null), ("y", .bool true)])]

theorem small_exact : small.Exact := .int (by decide) (by decide)

theorem large_exact : large.Exact := .int (by decide) (by decide)

theorem pairs_storable : Context.Storable pairs := by
  intro e he
  simp only [pairs, List.mem_cons, List.not_mem_nil, or_false] at he
  rcases he with rfl | rfl | rfl | rfl
  · refine ⟨.arr ?_, .arr ?_, by decide⟩
    · exact List.forall_mem_cons.mpr ⟨small_exact, List.forall_mem_singleton.mpr large_exact⟩
    · exact List.forall_mem_cons.mpr ⟨.int _, List.forall_mem_singleton.mpr (.int _)⟩
  · exact ⟨.str _, .str _, by decide⟩
  · exact ⟨nested_exact 126, nested_keysSorted 126, Nat.le_of_eq (nested_depth 126)⟩
  · refine ⟨.obj ?_, .obj ?_ ?_, by decide⟩
    · exact List.forall_mem_cons.mpr ⟨.null, List.forall_mem_singleton.mpr (.bool true)⟩
    · have hxy : "x" < "y" := by decide
      exact List.pairwise_pair.mpr hxy
    · exact List.forall_mem_cons.mpr ⟨.null, List.forall_mem_singleton.mpr (.bool true)⟩

def collected : Context := OrderedMap.ofList pairs

end Sample

open Sample in
theorem loads_agree_sample : (Context.Storable pairs ∧ Context.LoadsAlike pairs) ∧
    Context.Storable collected.entries ∧ Context.ComesBack collected :=
  ⟨⟨pairs_storable, Context.loads_agree.1 pairs pairs_storable⟩, pairs_storable.ofList,
    Context.loads_agree.2 collected pairs_storable.ofList⟩

example : Sample.collected.keys = ["b", "a\n\"\\é", "deep"] := by decide +kernel

end Workflow
