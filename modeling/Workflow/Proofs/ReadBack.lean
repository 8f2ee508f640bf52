import Workflow.Proofs.Literals

/-!
# Values read back from their text

The text of a value without floating-point numbers is read as the value, the members of its objects
sorted by key, wherever the text stands and as long as no more arrays and objects nest in it than
the reader allows. Arrays and objects are both lists of items between brackets, each item followed
by a comma or by the closing bracket. An object can also be read as it stands, its members in their
own order and a repeated one as often as it is written.
-/

namespace Workflow.Json

set_option autoImplicit false

/-- No floating-point numbers, and whole numbers of 64 bits, signed or not. -/
inductive Exact : Json → Prop where
  | null : Exact .null
  | bool (b : Bool) : Exact (.bool b)
  | int {n : Int} (low : -Int.pow 2 63 ≤ n) (high : n < Int.pow 2 64) : Exact (.int n)
  | str (s : String) : Exact (.str s)
  | arr {xs : List Json} (items : ∀ x ∈ xs, Exact x) : Exact (.arr xs)
  | obj {ms : List (String × Json)} (members : ∀ m ∈ ms, Exact m.2) : Exact (.obj ms)

mutual

/-- The value with the members of all its objects sorted by key. -/
def sortKeys : Json → Json
  | .arr xs => .arr (sortKeysItems xs)
  | .obj ms => ofMembers (sortKeysMembers ms)
  | v => v

def sortKeysItems : List Json → List Json
  | [] => []
  | x :: xs => sortKeys x :: sortKeysItems xs

def sortKeysMembers : List (String × Json) → List (String × Json)
  | [] => []
  | (k, x) :: ms => (k, sortKeys x) :: sortKeysMembers ms

end

theorem sortKeysItems_eq_map (xs : List Json) : sortKeysItems xs = xs.map sortKeys := by
  induction xs with
  | nil => rfl
  | cons x xs ih => rw [sortKeysItems, ih, List.map_cons]

theorem sortKeysMembers_eq_map (ms : List (String × Json)) :
    sortKeysMembers ms = ms.map fun m => (m.1, sortKeys m.2) := by
  induction ms with
  | nil => rfl
  | cons m ms ih => rw [sortKeysMembers, ih, List.map_cons]

theorem sortKeys_of_depth {v : Json} (h : v.depth = 0) : v.sortKeys = v := by
  cases v with
  | arr xs => exact absurd h (Nat.succ_ne_zero _)
  | obj ms => exact absurd h (Nat.succ_ne_zero _)
  | _ => rfl

theorem depth_le_depthItems {xs : List Json} {x : Json} (h : x ∈ xs) : x.depth ≤ depthItems xs := by
  induction xs with
  | nil => cases h
  | cons y ys ih =>
    rw [depthItems]
    rcases List.mem_cons.mp h with rfl | h
    · exact Nat.le_max_left _ _
    · exact Nat.le_trans (ih h) (Nat.le_max_right _ _)

theorem depth_le_depthMembers {ms : List (String × Json)} {m : String × Json} (h : m ∈ ms) :
    m.2.depth ≤ depthMembers ms := by
  induction ms with
  | nil => cases h
  | cons y ys ih =>
    rw [depthMembers]
    rcases List.mem_cons.mp h with rfl | h
    · exact Nat.le_max_left _ _
    · exact Nat.le_trans (ih h) (Nat.le_max_right _ _)

theorem depthItems_le {xs : List Json} {d : Nat} (h : ∀ x ∈ xs, x.depth ≤ d) :
    depthItems xs ≤ d := by
  induction xs with
  | nil => exact Nat.zero_le d
  | cons x xs ih =>
    rw [depthItems]
    exact Nat.max_le.mpr ⟨h x List.mem_cons_self, ih fun y hy => h y (List.mem_cons_of_mem x hy)⟩

theorem depthMembers_le {ms : List (String × Json)} {d : Nat} (h : ∀ m ∈ ms, m.2.depth ≤ d) :
    depthMembers ms ≤ d := by
  induction ms with
  | nil => exact Nat.zero_le d
  | cons m ms ih =>
    rw [depthMembers]
    exact Nat.max_le.mpr ⟨h m List.mem_cons_self, ih fun n hn => h n (List.mem_cons_of_mem m hn)⟩

/-- Items between an opening character and its closing one. -/
def listed {α : Type} (write : α → List Char) (close : Char) : List α → List Char
  | [] => [close]
  | x :: xs => write x ++ (xs.flatMap (fun y => ',' :: write y) ++ [close])

def memberChars (m : String × Json) : List Char := quotedChars m.1 ++ ':' :: chars m.2

theorem restChars_eq (xs : List Json) :
    restChars xs = xs.flatMap (fun x => ',' :: chars x) ++ [']'] := by
  induction xs with
  | nil => rfl
  | cons x xs ih => simp [restChars, ih]

theorem restMembers_eq (ms : List (String × Json)) :
    restMembers ms = ms.flatMap (fun m => ',' :: memberChars m) ++ ['}'] := by
  induction ms with
  | nil => rfl
  | cons m ms ih => simp [restMembers, ih, memberChars]

theorem chars_arr (xs : List Json) : chars (.arr xs) = '[' :: listed chars ']' xs := by
  cases xs with
  | nil => rfl
  | cons x xs => rw [chars, restChars_eq, listed]

theorem chars_obj (ms : List (String × Json)) :
    chars (.obj ms) = '{' :: listed memberChars '}' ms := by
  cases ms with
  | nil => rfl
  | cons m ms => simp [chars, restMembers_eq, listed, memberChars]

theorem skipBlanks_cons {c : Char} (h : isBlank c = false) (cs : List Char) :
    skipBlanks (c :: cs) = c :: cs := by
  simp [skipBlanks, h]

section Items
variable {α β : Type} {item : List Char → Except Malformed (β × List Char)} {close : Char}
  {write : α → List Char} {give : α → β}

/-- In front of a comma or of the closing character the text is read as an item, and nothing of what
follows is taken. -/
def ReadsBack (item : List Char → Except Malformed (β × List Char)) (close : Char)
    (cs : List Char) (x : β) : Prop :=
  ∀ c rest, c = ',' ∨ c = close → item (cs ++ c :: rest) = .ok (x, c :: rest)

/-- Items that are each read back are read back as a list. -/
theorem readItems_listed (hclose : isBlank close = false ∧ close ≠ ',') (x : α) (xs : List α)
    (hitem : ∀ y ∈ x :: xs, ReadsBack item close (write y) (give y))
    (rest : List Char) {n : Nat} (hn : xs.length < n) :
    readItems item close n (listed write close (x :: xs) ++ rest) =
      .ok ((x :: xs).map give, rest) := by
  obtain ⟨n, rfl⟩ := Nat.exists_eq_add_one.mpr (Nat.lt_of_le_of_lt (Nat.zero_le _) hn)
  induction xs generalizing x n with
  | nil =>
    have hx := hitem x List.mem_cons_self close rest (.inr rfl)
    simp [readItems, listed, hx, bind, Except.bind, skipBlanks_cons, hclose]
  | cons y ys ih =>
    have hx := hitem x List.mem_cons_self ',' (listed write close (y :: ys) ++ rest) (.inl rfl)
    obtain ⟨n, rfl⟩ := Nat.exists_eq_add_one.mpr
      (Nat.lt_of_le_of_lt (Nat.zero_le ys.length) (Nat.lt_of_succ_lt_succ hn))
    have hrest := ih y (fun z hz => hitem z (List.mem_cons_of_mem x hz)) n
      (Nat.lt_of_succ_lt_succ hn)
    have hsplit : listed write close (x :: y :: ys) ++ rest =
        write x ++ ',' :: (listed write close (y :: ys) ++ rest) := by
      simp [listed]
    rw [hsplit, readItems, hx]
    simp [hrest, bind, Except.bind, skipBlanks_cons, isBlank]

theorem length_le_listed (write : α → List Char) (close : Char) (xs : List α) :
    xs.length ≤ (listed write close xs).length := by
  have hsum : ∀ ys : List α, ys.length ≤ (ys.flatMap fun y => ',' :: write y).length := by
    intro ys
    induction ys with
    | nil => exact Nat.zero_le _
    | cons y ys ih =>
      simp only [List.flatMap_cons, List.length_append, List.length_cons]
      omega
  cases xs with
  | nil => exact Nat.zero_le _
  | cons x xs =>
    have := hsum xs
    simp only [listed, List.length_append, List.length_cons, List.length_nil]
    omega

theorem readBetween_listed (hclose : isBlank close = false ∧ close ≠ ',') (xs : List α)
    (hitem : ∀ y ∈ xs, ReadsBack item close (write y) (give y))
    (hhead : ∀ y ∈ xs, ∃ c cs, write y = c :: cs ∧ isBlank c = false ∧ c ≠ close)
    (rest : List Char) :
    readBetween item close (listed write close xs ++ rest) = .ok (xs.map give, rest) := by
  cases xs with
  | nil => simp [readBetween, listed, skipBlanks_cons, hclose]
  | cons x xs =>
    obtain ⟨c, cs, hx, hblank, hne⟩ := hhead x List.mem_cons_self
    have hcons : ∃ tail, listed write close (x :: xs) ++ rest = c :: tail := by
      rw [listed, hx]
      exact ⟨_, rfl⟩
    obtain ⟨tail, htail⟩ := hcons
    have hlength := length_le_listed write close (x :: xs)
    rw [readBetween, htail, skipBlanks_cons hblank]
    dsimp only
    rw [if_neg hne, ← htail]
    apply readItems_listed hclose x xs hitem
    simp only [List.length_cons, List.length_append] at hlength ⊢
    omega

end Items

theorem readsBack_of_stops {d : Nat} {v w : Json} {close : Char}
    (hclose : close = ']' ∨ close = '}')
    (h : ∀ {rest}, Stops rest → readValue d (v.chars ++ rest) = .ok (w, rest)) :
    ReadsBack (readValue d) close v.chars w := by
  intro c rest hc
  apply h
  rcases hc with rfl | rfl
  · exact stops_cons (.inl rfl) rest
  · exact stops_cons (.inr hclose) rest

section Members
variable {value : List Char → Except Malformed (Json × List Char)} {ms : List (String × Json)}

theorem readMember_written {m : String × Json} {w : Json}
    (h : ReadsBack value '}' (chars m.2) w) :
    ReadsBack (readMember value) '}' (memberChars m) (m.1, w) := by
  intro c rest hc
  have hkey : memberChars m ++ c :: rest =
      '"' :: (Quoted.encode m.1.toList ++ '"' :: ':' :: (chars m.2 ++ c :: rest)) := by
    simp [memberChars, quotedChars]
  have hquote : isBlank '"' = false := by decide
  have hcolon : isBlank ':' = false := by decide
  simp only [hkey, readMember, skipBlanks_cons hquote, skipBlanks_cons hcolon, Quoted.decode_encode,
    h c rest hc, bind, Except.bind, String.ofList_toList]

theorem readMembers_listed (give : Json → Json)
    (h : ∀ m ∈ ms, ReadsBack value '}' (chars m.2) (give m.2)) (rest : List Char) :
    readBetween (readMember value) '}' (listed memberChars '}' ms ++ rest) =
      .ok (ms.map fun m => (m.1, give m.2), rest) := by
  apply readBetween_listed (by decide)
  · intro m hm
    exact readMember_written (h m hm)
  · intro m _
    exact ⟨_, _, rfl, by decide, by decide⟩

end Members

theorem readValue_scalar {c : Char} (hblank : isBlank c = false) (harr : c ≠ '[') (hobj : c ≠ '{')
    (d : Nat) (cs : List Char) : readValue d (c :: cs) = readScalar (c :: cs) := by
  cases d with
  | zero =>
    rw [readValue, skipBlanks_cons hblank]
    split <;> simp_all
  | succ d =>
    rw [readValue, skipBlanks_cons hblank]
    split <;> simp_all

theorem readValue_arr (d : Nat) (cs : List Char) :
    readValue (d + 1) ('[' :: cs) =
      (readBetween (readValue d) ']' cs).map fun p => (.arr p.1, p.2) := by
  rw [readValue, skipBlanks_cons (by decide)]
  rfl

theorem readValue_obj (d : Nat) (cs : List Char) :
    readValue (d + 1) ('{' :: cs) =
      (readBetween (readMember (readValue d)) '}' cs).map fun p => (ofMembers p.1, p.2) := by
  rw [readValue, skipBlanks_cons (by decide)]
  rfl

theorem Exact.chars_head {v : Json} (h : Exact v) :
    ∃ c cs, v.chars = c :: cs ∧ isBlank c = false ∧ c ≠ ']' := by
  cases h with
  | null => exact ⟨_, _, rfl, by decide, by decide⟩
  | bool b => cases b <;> exact ⟨_, _, rfl, by decide, by decide⟩
  | @int n low high =>
    obtain ⟨c, cs, hn, hc⟩ := wholeChars_head n
    exact ⟨c, cs, hn, hc.not_blank, hc.ne (by decide)⟩
  | str s => exact ⟨_, _, rfl, by decide, by decide⟩
  | arr items => exact ⟨_, _, chars_arr _, by decide, by decide⟩
  | obj members => exact ⟨_, _, chars_obj _, by decide, by decide⟩

/-- The text of an exact value is read back as the value with sorted members, wherever it stands,
if no more arrays and objects nest in it than may. -/
theorem readValue_chars {v : Json} (h : Exact v) {d : Nat} (hd : v.depth ≤ d) {rest : List Char}
    (hrest : Stops rest) : readValue d (v.chars ++ rest) = .ok (v.sortKeys, rest) := by
  induction h generalizing d rest with
  | null => exact readValue_scalar (by decide) (by decide) (by decide) d _
  | bool b => cases b <;> exact readValue_scalar (by decide) (by decide) (by decide) d _
  | @int n low high =>
    obtain ⟨c, cs, hn, hc⟩ := wholeChars_head n
    have hread := readNumber_wholeChars low high hrest
    rw [chars, hn, List.cons_append, readValue_scalar hc.not_blank (hc.ne (by decide))
      (hc.ne (by decide)), readScalar_number hc, ← List.cons_append, ← hn]
    exact hread
  | str s =>
    have hchars : chars (.str s) ++ rest = '"' :: (Quoted.encode s.toList ++ '"' :: rest) := by
      simp [chars, quotedChars]
    rw [hchars, readValue_scalar (by decide) (by decide) (by decide), readScalar,
      Quoted.decode_encode]
    simp [bind, Except.bind, sortKeys]
  | @arr xs items ih =>
    -- the brackets take one level, the rest is left to the items
    obtain ⟨d, rfl⟩ := Nat.exists_eq_add_one.mpr (Nat.lt_of_lt_of_le (Nat.succ_pos _) hd)
    have hitem : ∀ x ∈ xs, ReadsBack (readValue d) ']' (chars x) x.sortKeys := by
      intro x hx
      have hdx := Nat.le_trans (depth_le_depthItems hx) (Nat.le_of_succ_le_succ hd)
      exact readsBack_of_stops (.inl rfl) fun hrest => ih x hx hdx hrest
    rw [chars_arr, List.cons_append, readValue_arr, readBetween_listed (by decide) xs hitem
      fun x hx => (items x hx).chars_head, sortKeys, sortKeysItems_eq_map]
    rfl
  | @obj ms members ih =>
    obtain ⟨d, rfl⟩ := Nat.exists_eq_add_one.mpr (Nat.lt_of_lt_of_le (Nat.succ_pos _) hd)
    have hmember : ∀ m ∈ ms, ReadsBack (readValue d) '}' (chars m.2) m.2.sortKeys := by
      intro m hm
      have hdm := Nat.le_trans (depth_le_depthMembers hm) (Nat.le_of_succ_le_succ hd)
      exact readsBack_of_stops (.inr rfl) fun hrest => ih m hm hdm hrest
    rw [chars_obj, List.cons_append, readValue_obj, readMembers_listed sortKeys hmember, sortKeys,
      sortKeysMembers_eq_map]
    rfl

/-- A text of its own is read back up to its end. -/
theorem ofText_text {v : Json} (h : Exact v) (hd : v.depth ≤ maxDepth) :
    ofText v.text = .ok v.sortKeys := by
  have hread := readValue_chars h hd stops_nil
  rw [List.append_nil] at hread
  rw [ofText, text, String.toList_ofList, hread]
  rfl

section Unmerged
variable {value : List Char → Except Malformed (Json × List Char)} {ms : List (String × Json)}

/-- An object as it stands in a text: its members are neither sorted nor merged. -/
def readObject (value : List Char → Except Malformed (Json × List Char)) (cs : List Char) :
    Except Malformed (Json × List Char) :=
  match skipBlanks cs with
  | '{' :: rest => do
    let (ms, rest) ← readBetween (readMember value) '}' rest
    .ok (.obj ms, rest)
  | rest => expected rest

theorem readObject_cons (cs : List Char) : readObject value ('{' :: cs) =
    (readBetween (readMember value) '}' cs).map fun p => (.obj p.1, p.2) := by
  rw [readObject, skipBlanks_cons (by decide)]
  rfl

/-- Members that are each read back are read back as they were written, a repeated one as often as
it was. -/
theorem readObject_chars (h : ∀ m ∈ ms, ReadsBack value '}' (chars m.2) m.2) (rest : List Char) :
    readObject value (chars (.obj ms) ++ rest) = .ok (.obj ms, rest) := by
  have hread := readMembers_listed (fun v => v) h rest
  rw [List.map_id'] at hread
  rw [chars_obj, List.cons_append, readObject_cons, hread]
  rfl

theorem Exact.readsBack_scalar {v : Json} (h : Exact v) (hd : v.depth = 0) :
    ReadsBack (readValue 0) '}' v.chars v := by
  have hread := readsBack_of_stops (.inr rfl) (readValue_chars h (Nat.le_of_eq hd))
  rwa [sortKeys_of_depth hd] at hread

/-- The text of an object of objects, as it stands. Nothing nests in the inner objects. -/
def recordsOf (s : String) : Except Malformed Json :=
  finish (readObject (readObject (readValue 0)) s.toList)

/-- Records of scalars are read back in their order and with all of their fields. -/
theorem recordsOf_text
    (h : ∀ m ∈ ms, ∃ fields, m.2 = .obj fields ∧ ∀ f ∈ fields, f.2.Exact ∧ f.2.depth = 0) :
    recordsOf (obj ms).text = .ok (.obj ms) := by
  have hrecord : ∀ m ∈ ms, ReadsBack (readObject (readValue 0)) '}' (chars m.2) m.2 := by
    intro m hm
    obtain ⟨fields, hfields, hscalar⟩ := h m hm
    rw [hfields]
    intro c rest _
    apply readObject_chars
    intro f hf
    exact (hscalar f hf).1.readsBack_scalar (hscalar f hf).2
  have hread := readObject_chars hrecord []
  rw [List.append_nil] at hread
  rw [recordsOf, text, String.toList_ofList, hread]
  rfl

end Unmerged
end Workflow.Json
