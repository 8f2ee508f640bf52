/-!
Joins. The join of a node says how many of the links that enter it have to continue for the node to
run; a `Tally` counts them, and its verdict is what becomes of the node when it is reached.
-/

namespace Workflow

set_option autoImplicit false

inductive Join where
  | all
  | any
  | one
deriving DecidableEq, Repr

instance : Inhabited Join := ⟨.one⟩

def Join.name : Join → String
  | all => "And"
  | any => "Or"
  | one => "None"

/-- The links that enter a node: how many there are, how many have a resolved source, and how many
of those sources continue on the link. -/
structure Tally where
  total : Nat
  known : Nat
  winning : Nat
deriving DecidableEq, Repr

inductive Verdict where
  | wait
  | run
  | skip
deriving DecidableEq, Repr

def Verdict.name : Verdict → String
  | wait => "NotReady"
  | run => "Run"
  | skip => "Skip"

def Join.admits (j : Join) (t : Tally) : Bool :=
  match j with
  | all => t.winning == t.total
  | any => 0 < t.winning
  | one => t.winning == 1

/-- A node waits until all sources are resolved; then it runs if nothing leads to it or if its join
admits the tally. -/
def Tally.verdict (t : Tally) (j : Join) : Verdict :=
  if t.known ≠ t.total then .wait
  else if t.total = 0 then .run
  else if j.admits t then .run
  else .skip

theorem Tally.verdict_eq_wait_iff {t : Tally} {j : Join} :
    t.verdict j = .wait ↔ t.known ≠ t.total := by
  unfold verdict
  split
  · simp_all
  · split
    · simp_all
    · split <;> simp_all

end Workflow
