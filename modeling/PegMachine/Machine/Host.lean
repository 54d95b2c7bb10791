import PegMachine.Input
import PegMachine.Machine.Fault

/-! Hosts: what answers the calls of a grammar's own code. -/
namespace PegMachine

/-- What a function sees besides its arguments. -/
structure CallContext where
  input : Input
  /-- Where the text begins that the call reports on. -/
  reported : Nat
  /-- Where the machine stands. -/
  pos : Nat
  deriving DecidableEq, Repr

/-- The input from the reported place to where the machine stands. -/
def CallContext.text (c : CallContext) : String :=
  c.input.text c.reported c.pos

/-- A host with a state of type `σ`: the answer to a call, and the state after it. -/
abbrev Host (σ : Type) := ActionFn → CallContext → List Value → σ → Except Fault Value × σ

/-- The host that refuses every call. -/
def Host.none {σ : Type} : Host σ := fun f _ _ s =>
  (.error (.host ("no action host for \x7b " ++ f.code ++ " \x7d")), s)

end PegMachine
