import PegMachine.Code.Height

/-! Why a grammar cannot be compiled. -/
namespace PegMachine

/-- Why there is no code for a grammar. -/
inductive CompileError where
  /-- A reference to a rule that is not there. -/
  | undefinedRule (name : String)
  /-- A length, count or number that no word holds. -/
  | operandOverflow (what : String) (value : Nat)
  /-- A label whose slot lies above the top of the stack. -/
  | invalidSlot (label : String) (slot sp : Int)
  /-- Code without the right stack height. -/
  | height (rule : String) (e : HeightError)
  deriving DecidableEq, Repr

namespace CompileError

/-- The words for a rule whose code was refused with the given words. -/
def refused (rule words : String) : String :=
  "compile error: rule '" ++ rule ++ "' failed verification: " ++ words

/-- The error in words. -/
def message : CompileError → String
  | .undefinedRule n => "compile error: rule '" ++ n ++ "' is referenced but not defined"
  | .operandOverflow what n =>
    "compile error: " ++ what ++ " " ++ toString n ++ " does not fit in a bytecode operand"
  | .invalidSlot l slot sp =>
    "compile error: label '" ++ l ++ "' refers to slot " ++ toString slot ++ " above stack pointer "
      ++ toString sp
  | .height rule e => refused rule e.message

end CompileError
end PegMachine
