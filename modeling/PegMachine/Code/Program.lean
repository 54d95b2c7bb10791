import PegMachine.Code.Constant
import PegMachine.Code.Opcode

/-! Programs: the code of the rules and the constants they share. -/
namespace PegMachine

/-- A rule's name and code. -/
structure RuleCode where
  name : String
  code : Code
  deriving DecidableEq, Repr

/-- A compiled grammar. -/
structure Program where
  rules : List RuleCode
  consts : List Constant
  deriving DecidableEq, Repr

namespace Program

/-- The number of the first rule of that name. -/
def ruleIndex? (p : Program) (name : String) : Option Nat := p.rules.findIdx? (·.name == name)

/-- The constant with that number. -/
def constant? (p : Program) (i : UInt32) : Option Constant := p.consts[i.toNat]?

end Program
end PegMachine
