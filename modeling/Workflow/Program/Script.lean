import Workflow.Program.Basic

/-!
Small scripts for nodes: a `Step` changes the context or checks it, a `Test` answers a question
about it. Both are written down as data and carried out as programs.
-/

namespace Workflow

set_option autoImplicit false

/-- A question to the context. -/
inductive Test where
  | const (answer : Bool)
  | have (k : String)
  | flag (k : String)
  | atLeast (k : String) (n : Int)
  | equals (k : String) (v : Json)
  | not (t : Test)
  | fail (f : Failure)

inductive Step where
  | store (k : String) (v : Json)
  | delete (k : String)
  | increase (k : String) (n : Int)
  | push (k : String) (v : Json)
  | copy (source target : String)
  | need (k : String)
  | absent (k : String)
  | cast (k : String) (shape : Json.Shape)
  | ifPresent (k : String) (present missing : List Step)
  | fail (f : Failure)

namespace Program

/-- Read a value by a decoder, with a default for an absent key; a mismatch is the failure. -/
def readOr {α : Type} (k : String) (decode : Json → Except Json.Mismatch α) (default : α) :
    Program α :=
  readAs k decode fun
    | none => done default
    | some r => ofExcept Json.Mismatch.message r

def unit : Program Unit := done ()

end Program

open Program in
/-- An absent key answers no, also to a threshold and to a comparison. -/
def Test.program : Test → Program Bool
  | const b => done b
  | .have k => haveKey k done
  | flag k => readOr k Json.asBool false
  | atLeast k n =>
    (readOr k (fun v => (Json.asInt .i64 v).map some) none).bind fun
      | none => done false
      | some m => done (decide (n ≤ m))
  | equals k v => read k fun
      | none => done false
      | some w => done (w.same v)
  | not t => t.program.bind fun b => done (!b)
  | fail f => .fail f

mutual

def Step.program : Step → Program Unit
  | .store k v => .store k v .unit
  | .delete k => .delete k fun _ => .unit
  | .increase k n =>
    (Program.readOr k (Json.asInt .i64) 0).bind fun m =>
      if Json.Width.i64.holds (m + n) then .store k (.int (m + n)) .unit
      else .fail ⟨"overflow", []⟩
  | .push k v =>
    (Program.readOr k Json.asItems []).bind fun xs =>
      .storeEncoded k (.ok (.arr (xs ++ [v]))) (Program.ofExcept Json.Unencodable.message)
  | .copy source target => .read source fun
      | none => .unit
      | some v => .store target v .unit
  | .need k => .haveKey k fun
      | true => .unit
      | false => .fail ⟨s!"missing key `{k}`", []⟩
  | .absent k => .haveKey k fun
      | true => .fail ⟨s!"unexpected key `{k}`", []⟩
      | false => .unit
  | .cast k shape => .readAs k (fun v => shape.read v) fun
      | none => .unit
      | some r => (Program.ofExcept Json.Mismatch.message r).bind fun _ => .unit
  | .ifPresent k present missing => .haveKey k fun
      | true => Step.programs present
      | false => Step.programs missing
  | .fail f => .fail f

/-- Steps run in order until one fails. -/
def Step.programs : List Step → Program Unit
  | [] => Program.unit
  | s :: ss => s.program.bind fun _ => Step.programs ss

end

end Workflow
