import Workflow.Node

/-!
Programs over a context. A program touches the context through its keyed operations alone, goes on
by what they answer, and may give up at any point; what it did before stays.
-/

namespace Workflow

set_option autoImplicit false

inductive Program (α : Type) : Type 1 where
  | done (result : α)
  | fail (failure : Failure)
  | store (k : String) (v : Json) (next : Program α)
  | storeEncoded (k : String) (v : Except Json.Unencodable Json)
      (next : Except Json.Unencodable Unit → Program α)
  | delete (k : String) (next : Option Json → Program α)
  | read (k : String) (next : Option Json → Program α)
  | readAs {β : Type} (k : String) (decode : Json → Except Json.Mismatch β)
      (next : Option (Except Json.Mismatch β) → Program α)
  | haveKey (k : String) (next : Bool → Program α)
  | len (next : Nat → Program α)
  | isEmpty (next : Bool → Program α)

namespace Program
variable {α β : Type}

def run : Program α → Context → Except Failure α × Context
  | done a, c => (.ok a, c)
  | fail f, c => (.error f, c)
  | store k v next, c => next.run (c.store k v)
  | storeEncoded k v next, c =>
    let (r, d) := Context.storeEncoded c k v
    (next r).run d
  | delete k next, c =>
    let (v, d) := Context.delete c k
    (next v).run d
  | read k next, c => (next (Context.read c k)).run c
  | readAs k decode next, c => (next (Context.readAs c k decode)).run c
  | haveKey k next, c => (next (Context.haveKey c k)).run c
  | len next, c => (next (Context.len c)).run c
  | isEmpty next, c => (next (Context.isEmpty c)).run c

def bind : Program α → (α → Program β) → Program β
  | done a, f => f a
  | fail e, _ => fail e
  | store k v next, f => store k v (next.bind f)
  | storeEncoded k v next, f => storeEncoded k v fun r => (next r).bind f
  | delete k next, f => delete k fun v => (next v).bind f
  | read k next, f => read k fun v => (next v).bind f
  | readAs k decode next, f => readAs k decode fun v => (next v).bind f
  | haveKey k next, f => haveKey k fun b => (next b).bind f
  | len next, f => len fun n => (next n).bind f
  | isEmpty next, f => isEmpty fun b => (next b).bind f

instance : Monad Program where
  pure := done
  bind := bind

/-- Take an answer or give up with its error. -/
def ofExcept {ε : Type} (message : ε → String) : Except ε α → Program α
  | .ok a => done a
  | .error e => fail ⟨message e, []⟩

theorem run_bind (p : Program α) (f : α → Program β) (c : Context) :
    (p.bind f).run c =
      match p.run c with
      | (.ok a, d) => (f a).run d
      | (.error e, d) => (.error e, d) := by
  induction p generalizing c with
  | done a => rfl
  | fail e => rfl
  | store k v next ih => exact ih (c.store k v)
  | storeEncoded k v next ih => exact ih _ _
  | delete k next ih => exact ih _ _
  | read k next ih => exact ih _ _
  | readAs k decode next ih => exact ih _ _
  | haveKey k next ih => exact ih _ _
  | len next ih => exact ih _ _
  | isEmpty next ih => exact ih _ _

end Program
end Workflow
