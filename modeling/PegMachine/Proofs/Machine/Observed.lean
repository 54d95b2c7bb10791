import PegMachine.Machine.Run
import PegMachine.Proofs.Machine.Follows
import PegMachine.Proofs.Machine.Frame

/-! Runs with the history of their failures beside them. Without the history they are the runs of the
machine. -/
namespace PegMachine

variable {σ α β : Type}

/-- A failure as it was met: the place, how often failures were silenced there, and what was expected. -/
structure Failure where
  pos : ℕ
  silence : ℕ
  expected : Expectation
  deriving DecidableEq

/-- The failures that were not silenced. -/
def Failure.loud (fs : List Failure) : List Failure := fs.filter fun f => f.silence = 0

/-- A part of a run that writes down each failure it meets. -/
abbrev Observed (σ : Type) := StateT (List Failure) (Run σ)

open Run

namespace Observed

/-- A part of a run that meets no failure. -/
def plain (f : Run σ α) : Observed σ α := liftM f

/-- Writes down a failure, and records it unless it is silenced. -/
def fail (e : Expectation) : Observed σ Unit := do
  let s ← plain get
  modify fun fs => fs ++ [⟨s.pos, s.silence, e⟩]
  plain (modify fun s => { s with toProgress := s.toProgress.fail e })

/-- Observes an instruction; `rule` observes a rule. Only one instruction records failures. -/
def instr (env : Env σ) (rule : ℕ → Observed σ Value) : Instr → Stack → Observed σ Stack
  | .rule i, S => do
    let v ← rule i.toNat
    pure (v :: S)
  | .fail i, S => do
    let e ← plain (ofExcept (env.program.expectation i))
    fail e
    pure (.failed :: S)
  | i, S => plain (i.run env (fun _ => throw .fuel) S)

def whileMatched (body : Stack → Observed σ Stack) : (fuel : ℕ) → Stack → Observed σ Stack
  | fuel, S => do
    let v ← plain (ofExcept S.top)
    if v.isFailed then pure S
    else match fuel with
      | 0 => plain (throw .fuel)
      | fuel + 1 => do
        let S ← body S
        whileMatched body fuel S

/-- Observes a stretch of code. -/
def block (env : Env σ) (fuel : ℕ) (rule : ℕ → Observed σ Value) (name : String) :
    Block → Stack → Observed σ Stack
  | .instr _ i rest, S => do
    plain (tick env.limits S)
    let S ← instr env rule i S
    block env fuel rule name rest S
  | .branch _ t _ _ yes no rest, S => do
    plain (tick env.limits S)
    let s ← plain get
    let (answer, S) ← plain (ofExcept (t.holds env s.pos S))
    let S ← if answer then block env fuel rule name yes S else block env fuel rule name no S
    block env fuel rule name rest S
  | .loop _ _ body rest, S => do
    plain (tick env.limits S)
    let S ← whileMatched (block env fuel rule name body) fuel S
    block env fuel rule name rest S
  | .call _ f pops slots rest, S => do
    plain (tick env.limits S)
    let args ← plain (ofExcept (S.peekAll slots))
    let v ← plain (callHost env f args)
    let S ← plain (ofExcept (S.popN pops.toNat))
    block env fuel rule name rest (v :: S)
  | .done, S => pure S
  | .unknown ip w, S => do
    plain (tick env.limits S)
    plain (fault (.badOpcode name ip w))
  | .truncated ip op slots, S => do
    plain (tick env.limits S)
    let _ ← plain (ofExcept (S.peekAll slots))
    plain (fault (.truncated name ip op))
  | .branchOverrun ip t _ _, S => do
    plain (tick env.limits S)
    plain (fault (.spanOverrun name ip t.opcode))
  | .loopOverrun ip _, S => do
    plain (tick env.limits S)
    plain (fault (.spanOverrun name ip .whileMatched))

def rule (env : Env σ) (rules : List LoadedRule) (fuel : ℕ) : (depth : ℕ) → ℕ → Observed σ Value
  | depth, i =>
    match rules[i]? with
    | none => plain (fault (.ruleIndex i))
    | some r =>
      match depth with
      | 0 => plain (fault (.callDepth env.limits.callDepth r.name))
      | depth + 1 => do
        let S ← block env fuel (rule env rules fuel depth) r.name r.body []
        plain (ofExcept S.top)

end Observed

/-- Runs a rule from the start of the input and writes down its failures. -/
def Machine.observe (m : Machine σ) (i : ℕ) (input : String) : Observed σ Outcome := do
  .plain reset
  let v ← Observed.rule (m.env input) m.program.load m.fuel m.limits.callDepth i
  let s ← .plain get
  pure ⟨v, s.pos, s.report⟩

end PegMachine
