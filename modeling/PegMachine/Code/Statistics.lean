import PegMachine.Code.Program
import PegMachine.Text.Column
import PegMachine.Text.OneDecimal

/-! How often a program uses each opcode. -/
namespace PegMachine

/-- The number of words that belong to an opcode of that shape, bodies apart: they follow it and are
walked over in their turn. A call whose number of slots is missing has no such number. -/
def Shape.span (args : Code) : Shape → Option Nat
  | .plain n => some n
  | .condition n => some (n + 2)
  | .loop => some 1
  | .call => args[2]?.map fun n => 3 + n.toNat

/-- The opcodes of the code, bodies included, up to the first word that numbers none. -/
def Code.opcodes (code : Code) : List Opcode :=
  match code with
  | [] => []
  | w :: args =>
    match Opcode.ofWord? w with
    | none => []
    | some op =>
      op :: match op.shape.span args with
        | none => []
        | some n => Code.opcodes (args.drop n)
termination_by code.length
decreasing_by
  rw [List.length_drop, List.length_cons]
  omega

namespace Program

/-- The opcodes of all rules. -/
def opcodes (p : Program) : List Opcode := p.rules.flatMap fun r => Code.opcodes r.code

/-- Each opcode that occurs, with its count: the most frequent ones first, and of two that occur
equally often the one with the lesser name. -/
def frequencies (p : Program) : List (Opcode × Nat) :=
  let counts := Opcode.all.filterMap fun op =>
    let n := p.opcodes.count op
    if n = 0 then none else some (op, n)
  counts.mergeSort fun a b =>
    b.2 < a.2 || (a.2 == b.2 && decide (a.1.mnemonic ≤ b.1.mnemonic))

/-- The line of an opcode that occurs `n` times among `total`. -/
def frequencyLine (total : Nat) (op : Opcode) (n : Nat) : String :=
  "  " ++ Text.alignLeft 18 op.mnemonic ++ " " ++ Text.alignRight 4 ' ' (toString n) ++ " ("
    ++ Text.alignRight 5 ' ' (Text.percent n total) ++ "%)\n"

/-- The size of a program and its ten most frequent opcodes. -/
def statistics (p : Program) : String :=
  "=== BYTECODE STATISTICS ===\n\nRules:     " ++ toString p.rules.length
    ++ "\nConstants: " ++ toString p.consts.length
    ++ "\nWords:     " ++ toString (p.rules.flatMap (·.code)).length
    ++ "\n\nOp frequency:\n"
    ++ String.join ((p.frequencies.take 10).map fun f => frequencyLine p.opcodes.length f.1 f.2)

end Program
end PegMachine
