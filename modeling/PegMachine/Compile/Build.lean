import PegMachine.Compile.Scope

/-! Code put together from its parts. The length of a body stands before it, so that a piece of code
is finished once its bodies are. -/
namespace PegMachine

def Instr.words (i : Instr) : Code := i.opcode.word :: i.operands

def Test.words (t : Test) : Code := t.opcode.word :: t.operands

/-- A number as a word. -/
def operand (what : String) (n : Nat) : Except CompileError UInt32 :=
  if n < UInt32.size then .ok (UInt32.ofNat n) else .error (.operandOverflow what n)

namespace Code

/-- An opcode by itself. -/
def op (o : Opcode) : Code := [o.word]

/-- An opcode with one operand. -/
def op1 (o : Opcode) (n : UInt32) : Code := [o.word, n]

/-- Instructions one after the other. -/
def seq (is : List Instr) : Code := is.flatMap Instr.words

/-- A test and its two bodies. -/
def branch (test yes no : Code) : Except CompileError Code := do
  let a ← operand "span length" yes.length
  let b ← operand "span length" no.length
  .ok (test ++ [a, b] ++ yes ++ no)

/-- A loop and its body. -/
def loop (test body : Code) : Except CompileError Code := do
  let a ← operand "span length" body.length
  .ok (test ++ [a] ++ body)

/-- A call of function `f` with the labels in scope, which takes `pops` values from the stack. -/
def call (f : UInt32) (pops : Nat) (s : Scope) (sp : Int) : Except CompileError Code := do
  let slots ← Scope.offsets sp s
  let n ← operand "pop count" pops
  let k ← operand "parameter count" slots.length
  .ok (Opcode.call.word :: f :: n :: k :: slots)

end Code
end PegMachine
