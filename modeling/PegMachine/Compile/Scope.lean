import PegMachine.Compile.Error
import PegMachine.Labels

/-! What the compiler knows about the stack: the slot of its top and the slots of the labels. A
slot counts from the bottom of the rule's stack. -/
namespace PegMachine

/-- The labels in scope and their slots. -/
abbrev Scope := Labels Int

namespace Scope

/-- How far a slot lies below the top. -/
def offset (sp : Int) (b : String × Int) : Except CompileError UInt32 :=
  if 0 ≤ sp - b.2 ∧ sp - b.2 < UInt32.size then .ok (UInt32.ofNat (sp - b.2).toNat)
  else .error (.invalidSlot b.1 b.2 sp)

/-- How far each label lies below the top at slot `sp`. -/
def offsets (sp : Int) : Scope → Except CompileError (List UInt32)
  | [] => .ok []
  | b :: bs => do
    let n ← offset sp b
    let ns ← offsets sp bs
    .ok (n :: ns)

end Scope

/-- Where an expression is compiled. -/
structure Context where
  /-- The slot of the top of the stack. -/
  sp : Int
  /-- The action that a sequence has to call itself, because it binds the labels. -/
  action : Option String
  deriving DecidableEq, Repr

namespace Context

/-- The start of a rule: no slot is taken. -/
def rule : Context := ⟨-1, none⟩

/-- `n` values higher, without the action. -/
def push (c : Context) (n : Int) : Context := ⟨c.sp + n, none⟩

/-- `n` values higher. -/
def step (c : Context) (n : Int) : Context := ⟨c.sp + n, c.action⟩

/-- The same place with an action to call. -/
def withAction (c : Context) (code : String) : Context := ⟨c.sp, some code⟩

end Context
end PegMachine
