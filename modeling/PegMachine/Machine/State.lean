import PegMachine.Machine.Host

/-! The state of a run. -/
namespace PegMachine

/-- What outlives an instruction: the place in the input, how often failures are silenced, the
furthest failure, and the state of the host. -/
structure Progress (σ : Type) where
  pos : Nat
  silence : Nat
  report : Report
  host : σ

/-- The state of the machine. -/
structure State (σ : Type) extends Progress σ where
  /-- Where the text begins that the next call reports on. -/
  reported : Nat
  /-- The number of instructions so far. -/
  steps : Nat

/-- Why a run stops early. -/
inductive Stop where
  /-- A fault that the machine finds. -/
  | fault (f : Fault)
  /-- A fault that the host answers with. -/
  | host (f : Fault)
  /-- A loop has more passes than were granted. -/
  | fuel
  deriving DecidableEq, Repr

/-- A part of a run. The state outlives a stop. -/
abbrev Run (σ : Type) := EStateM Stop (State σ)

variable {σ : Type}

namespace Progress

/-- The start of a run. -/
def start (host : σ) : Progress σ := ⟨0, 0, {}, host⟩

/-- Records what is expected here, silenced or not. -/
def expect (p : Progress σ) (e : Expectation) : Progress σ :=
  { p with report := p.report.record p.pos e }

/-- Records what is expected here unless failures are silenced. -/
def fail (p : Progress σ) (e : Expectation) : Progress σ :=
  if p.silence = 0 then p.expect e else p

/-- Asks the host to run a function that reports from place `reported` on. -/
def call (p : Progress σ) (host : Host σ) (input : Input) (reported : Nat) (f : ActionFn)
    (args : List Value) : Except Fault Value × Progress σ :=
  let (answer, h) := host f ⟨input, reported, p.pos⟩ args p.host
  (answer, { p with host := h })

end Progress

/-- The start of a run. -/
def State.start (host : σ) : State σ := ⟨.start host, 0, 0⟩

namespace Run

/-- Stops with a fault of the machine. -/
def fault {α : Type} (f : Fault) : Run σ α := throw (.fault f)

/-- Stops where there is a fault. -/
def ofExcept {α : Type} : Except Fault α → Run σ α
  | .ok a => pure a
  | .error f => fault f

/-- Goes to another place. -/
def seek (p : Nat) : Run σ Unit := modify fun s => { s with pos := p }

end Run
end PegMachine
