/-!
Branches. A link that leaves a decision is followed on an answer, every other link always; the
outcome of a decision names the answer that it gave.
-/

namespace Workflow

set_option autoImplicit false

abbrev Branch := Option Bool

namespace Branch

def unconditional : Branch := none

def all : List Branch := [none, some true, some false]

/-- The branches on which links leave a node: both answers for a decision. -/
def outgoing (decides : Bool) : List Branch :=
  if decides then [some true, some false] else [none]

def label : Branch → String
  | none => "*"
  | some true => "true"
  | some false => "false"

theorem mem_all (b : Branch) : b ∈ all := by
  rcases b with _ | _ | _ <;> decide

theorem mem_outgoing {b : Branch} {decides : Bool} :
    b ∈ outgoing decides ↔ b.isSome = decides := by
  rcases b with _ | _ | _ <;> cases decides <;> decide

theorem outgoing_nodup (decides : Bool) : (outgoing decides).Nodup := by
  cases decides <;> decide

end Branch
end Workflow
