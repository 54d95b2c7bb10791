import PegMachine.Code.Opcode
import PegMachine.Machine.Report
import PegMachine.Value

/-! Faults: why a run ends without a value. -/
namespace PegMachine

/-- What an instruction takes a constant to be. -/
inductive ConstantUse where
  | value | expectation | string | charClass | function
  deriving DecidableEq, Repr

def ConstantUse.phrase : ConstantUse → String
  | .value => "a pushable value"
  | .expectation => "an expectation"
  | .string => "a string"
  | .charClass => "a character class"
  | .function => "a function"

/-- Why a run ends without a value. All but the last are no fault of the input. -/
inductive Fault where
  | badOpcode (rule : String) (ip : Nat) (word : UInt32)
  | truncated (rule : String) (ip : Nat) (op : Opcode)
  | spanOverrun (rule : String) (ip : Nat) (op : Opcode)
  | stackUnderflow (needed height : Nat)
  | typeError (expected got : Kind)
  | badConstant (index : UInt32) (expected : ConstantUse)
  | ruleIndex (index : Nat)
  | unknownRule (name : String)
  | stepLimit (limit : Nat)
  | callDepth (limit : Nat) (rule : String)
  | stackLimit (limit : Nat)
  /-- The host refused a call. -/
  | host (words : String)
  /-- The input does not match. -/
  | noParse (f : ParseFailure)
  deriving DecidableEq, Repr

namespace Fault

/-- The words for a value of one kind in place of another. -/
def mismatch (expected got : String) : String :=
  "runtime error: type error: expected " ++ expected ++ ", got " ++ got

/-- The words for an instruction of a rule. -/
def located (ip : Nat) (rule : String) : String :=
  " at ip=" ++ toString ip ++ " in rule '" ++ rule ++ "'"

/-- The fault in words. -/
def message : Fault → String
  | .badOpcode r ip w => "runtime error: bad opcode " ++ toString w.toNat ++ located ip r
  | .truncated r ip op => "runtime error: truncated operands for " ++ op.mnemonic ++ located ip r
  | .spanOverrun r ip op =>
    "runtime error: " ++ op.mnemonic ++ " bodies overrun the enclosing span" ++ located ip r
  | .stackUnderflow n h =>
    "runtime error: stack underflow: needed " ++ toString n ++ " items, have " ++ toString h
  | .typeError e g => mismatch e.name g.name
  | .badConstant i u =>
    "runtime error: constant " ++ toString i.toNat ++ " is missing or not " ++ u.phrase
  | .ruleIndex i => "runtime error: rule index " ++ toString i ++ " out of range"
  | .unknownRule n => "runtime error: no rule named '" ++ n ++ "'"
  | .stepLimit n => "runtime error: execution step limit exceeded (" ++ toString n ++ ")"
  | .callDepth n r =>
    "runtime error: call depth limit exceeded (" ++ toString n
      ++ ") - possible left recursion in '" ++ r ++ "'"
  | .stackLimit n => "runtime error: stack size limit exceeded (" ++ toString n ++ ")"
  | .host words => "runtime error: action failed: " ++ words
  | .noParse f => f.message

end Fault
end PegMachine
