import PegMachine.Code.Constant
import PegMachine.Compile.Build

/-! Pools of constants: each constant is kept once and is numbered when it is first seen. -/
namespace PegMachine

/-- The constants in the order of their numbers. -/
structure Pool where
  consts : List Constant := []
  deriving DecidableEq, Repr

namespace Pool

/-- The number of a constant, and the pool that has it. -/
def intern (p : Pool) (c : Constant) : Except CompileError (UInt32 × Pool) :=
  match p.consts.idxOf? c with
  | some i => .ok (UInt32.ofNat i, p)
  | none => do
    let i ← operand "constant index" p.consts.length
    .ok (i, ⟨p.consts ++ [c]⟩)

/-- The constant with that number. -/
def get? (p : Pool) (i : UInt32) : Option Constant := p.consts[i.toNat]?

/-- The number of constants. -/
def size (p : Pool) : Nat := p.consts.length

end Pool
end PegMachine
