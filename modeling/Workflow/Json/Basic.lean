/-!
JSON values. Whole numbers and floating-point numbers are different values even when they stand for
the same number. The members of an object are a list, so that texts can show them in any order; a
value that is read keeps them sorted by key, each key once, which `ofMembers` brings about.
-/

namespace Workflow

set_option autoImplicit false

inductive Json where
  | null
  | bool (b : Bool)
  | int (n : Int)
  | float (x : Float)
  | str (s : String)
  | arr (items : List Json)
  | obj (members : List (String × Json))
deriving Inhabited

namespace Json

mutual

/-- Equality, with zero equal to minus zero. -/
def same : Json → Json → Bool
  | .null, .null => true
  | .bool a, .bool b => a == b
  | .int m, .int n => m == n
  | .float x, .float y => x == y
  | .str s, .str t => s == t
  | .arr xs, .arr ys => sameItems xs ys
  | .obj ms, .obj ns => sameMembers ms ns
  | _, _ => false

def sameItems : List Json → List Json → Bool
  | [], [] => true
  | x :: xs, y :: ys => same x y && sameItems xs ys
  | _, _ => false

def sameMembers : List (String × Json) → List (String × Json) → Bool
  | [], [] => true
  | (k, x) :: ms, (l, y) :: ns => k == l && same x y && sameMembers ms ns
  | _, _ => false

end

instance : BEq Json := ⟨same⟩

/-- Put a member in its place by key; an equal key gets the new value. -/
def insertMember (k : String) (v : Json) : List (String × Json) → List (String × Json)
  | [] => [(k, v)]
  | (l, w) :: ms =>
    if k < l then (k, v) :: (l, w) :: ms
    else if k = l then (k, v) :: ms
    else (l, w) :: insertMember k v ms

def sortMembers (ms : List (String × Json)) : List (String × Json) :=
  ms.foldl (fun sorted m => insertMember m.1 m.2 sorted) []

/-- An object: members sorted by key, and of equal keys the last. -/
def ofMembers (ms : List (String × Json)) : Json := .obj (sortMembers ms)

def ofOption : Option Json → Json
  | none => .null
  | some v => v

/-- A floating-point number, or null for one that has no numeral. -/
def ofFloat (x : Float) : Json :=
  if x.isFinite then .float x else .null

/-- The double nearest to a whole number of 64 bits. -/
def wholeFloat (n : Int) : Float :=
  let x := (UInt64.ofNat n.natAbs).toFloat
  if n < 0 then -x else x

def member? (v : Json) (k : String) : Option Json :=
  match v with
  | .obj ms => ms.lookup k
  | _ => none

mutual

/-- How deep arrays and objects nest. -/
def depth : Json → Nat
  | .arr xs => depthItems xs + 1
  | .obj ms => depthMembers ms + 1
  | _ => 0

def depthItems : List Json → Nat
  | [] => 0
  | x :: xs => max (depth x) (depthItems xs)

def depthMembers : List (String × Json) → Nat
  | [] => 0
  | (_, x) :: ms => max (depth x) (depthMembers ms)

end

theorem insertMember_keys (k : String) (v : Json) (ms : List (String × Json)) (j : String) :
    j ∈ (insertMember k v ms).map Prod.fst ↔ j = k ∨ j ∈ ms.map Prod.fst := by
  induction ms with
  | nil => simp [insertMember]
  | cons m ms ih =>
    obtain ⟨l, w⟩ := m
    rw [insertMember]
    split
    · simp
    · split <;> simp_all
      exact or_left_comm

end Json
end Workflow
