import Workflow.Node

/-!
Links. A link leads from one node to another one; it carries a branch exactly when it leaves a
decision. Both conditions are part of the type, and `Link.make` says which one a refused link
misses.
-/

namespace Workflow

set_option autoImplicit false

structure Link where
  source : Node
  target : Node
  branch : Branch
  branch_isSome : branch.isSome = source.decides
  source_ne_target : source ≠ target
deriving DecidableEq

inductive LinkError where
  | missingSource
  | branchMismatch (source : Node) (branch : Branch)
  | missingTarget
  | selfLoop (node : Node)
deriving DecidableEq, Repr

namespace LinkError

def message : LinkError → String
  | missingSource => "link has no source node"
  | branchMismatch source branch =>
    "branch `" ++ branch.label ++ "` does not match decide capability of `" ++ source.text ++ "`"
  | missingTarget => "link has no target node"
  | selfLoop node => "node `" ++ node.text ++ "` cannot link to itself"

def node? : LinkError → Option Node
  | branchMismatch source _ => some source
  | selfLoop node => some node
  | _ => none

end LinkError

namespace Link

/-- A link from its parts. The first condition that fails is the error: there is a source, the
branch fits it, there is a target, and it is another node. -/
def make (source target : Option Node) (branch : Branch) : Except LinkError Link :=
  match source with
  | none => .error .missingSource
  | some s =>
    if hb : branch.isSome = s.decides then
      match target with
      | none => .error .missingTarget
      | some t => if h : s = t then .error (.selfLoop s) else .ok ⟨s, t, branch, hb, h⟩
    else .error (.branchMismatch s branch)

def text (l : Link) : String :=
  match l.branch with
  | none => l.source.text ++ " -> " ++ l.target.text
  | some _ => l.source.text ++ " -[" ++ l.branch.label ++ "]-> " ++ l.target.text

theorem branch_mem_outgoing (l : Link) : l.branch ∈ l.source.outgoing :=
  Branch.mem_outgoing.mpr l.branch_isSome

theorem make_eq_ok_iff {source target : Option Node} {branch : Branch} {l : Link} :
    make source target branch = .ok l ↔
      source = some l.source ∧ target = some l.target ∧ branch = l.branch := by
  constructor
  · intro h
    unfold make at h
    split at h
    · cases h
    · split at h
      · split at h
        · cases h
        · split at h
          · cases h
          · cases h
            exact ⟨rfl, rfl, rfl⟩
      · cases h
  · rintro ⟨rfl, rfl, rfl⟩
    simp [make, l.branch_isSome, l.source_ne_target]

end Link
end Workflow
