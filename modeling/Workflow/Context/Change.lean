import Workflow.Context.Basic

/-!
Changes: what can be done to a context, as data. A change comes back with a reply and leaves a
context, so that a context has a history, the list of the changes that were made to it.
-/

namespace Workflow

set_option autoImplicit false

inductive Change where
  | store (k : String) (v : Json)
  | storeEncoded (k : String) (v : Except Json.Unencodable Json)
  | delete (k : String)

/-- What is told of a change: that it was made, why it was not, or what was deleted. -/
inductive Reply where
  | stored
  | refused (why : Json.Unencodable)
  | deleted (former : Option Json)

/-- The value that a change puts under a key; an encoding that failed puts none. -/
def Change.written (x : Change) (k : String) : Option Json :=
  match x with
  | store j v => if k = j then some v else none
  | storeEncoded j (.ok v) => if k = j then some v else none
  | _ => none

namespace Context

def change (c : Context) : Change → Reply × Context
  | .store k v => (.stored, c.store k v)
  | .storeEncoded k v =>
    match c.storeEncoded k v with
    | (.ok (), d) => (.stored, d)
    | (.error e, d) => (.refused e, d)
  | .delete k =>
    let (former, d) := c.delete k
    (.deleted former, d)

/-- The context after a list of changes. -/
def after (c : Context) (xs : List Change) : Context := xs.foldl (fun c x => (c.change x).2) c

/-- All that a change can do: store a value, erase a key, or nothing at all. -/
theorem change_cases (c : Context) (x : Change) :
    (∃ k v, (∀ j, x.written j = if j = k then some v else none) ∧ (∀ j, x ≠ .delete j) ∧
        c.change x = (.stored, c.store k v)) ∨
      (∃ k, x = .delete k ∧ c.change x = (.deleted (c.read k), c.erase k)) ∨
      (∃ k e, x = .storeEncoded k (.error e) ∧ c.change x = (.refused e, c)) := by
  cases x with
  | store k v => exact .inl ⟨k, v, fun _ => rfl, nofun, rfl⟩
  | storeEncoded k v =>
    cases v with
    | ok v => exact .inl ⟨k, v, fun _ => rfl, nofun, rfl⟩
    | error e => exact .inr (.inr ⟨k, e, rfl, rfl⟩)
  | delete k => exact .inr (.inl ⟨k, rfl, rfl⟩)

@[simp] theorem after_nil (c : Context) : c.after [] = c := rfl

theorem after_append (c : Context) (xs ys : List Change) :
    c.after (xs ++ ys) = (c.after xs).after ys := List.foldl_append

theorem after_concat (c : Context) (xs : List Change) (x : Change) :
    c.after (xs ++ [x]) = ((c.after xs).change x).2 := after_append c xs [x]

/-- Collecting pairs is storing them in turn. -/
theorem ofList_eq_after (es : List (String × Json)) :
    (OrderedMap.ofList es : Context) = after ∅ (es.map fun e => .store e.1 e.2) := by
  rw [after, List.foldl_map]
  rfl

end Context
end Workflow
