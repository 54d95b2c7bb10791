import PegMachine.Machine.Step

/-! Runs of code, of rules and of whole programs. A run is a recursion on the code as a tree; `fuel`
bounds the passes of each loop, and the limit on the call depth bounds the rules inside one another. -/
namespace PegMachine

variable {σ : Type}

open Run

/-- Runs a body until the top value is the mark of failure, at most `fuel` times. -/
def Run.whileMatched (body : Stack → Run σ Stack) : (fuel : Nat) → Stack → Run σ Stack
  | fuel, st => do
    let v ← ofExcept st.top
    if v.isFailed then pure st
    else match fuel with
      | 0 => throw .fuel
      | fuel + 1 => do
        let st ← body st
        whileMatched body fuel st

/-- Runs code of the rule called `name` on a stack; `rule` runs a rule. -/
def Block.run (env : Env σ) (fuel : Nat) (rule : Nat → Run σ Value) (name : String) :
    Block → Stack → Run σ Stack
  | .done, st => pure st
  | .unknown ip w, st => do
    tick env.limits st
    fault (.badOpcode name ip w)
  | .truncated ip op slots, st => do
    tick env.limits st
    let _ ← ofExcept (st.peekAll slots)
    fault (.truncated name ip op)
  | .branchOverrun ip t _ _, st => do
    tick env.limits st
    fault (.spanOverrun name ip t.opcode)
  | .loopOverrun ip _, st => do
    tick env.limits st
    fault (.spanOverrun name ip .whileMatched)
  | .instr _ i rest, st => do
    tick env.limits st
    let st ← i.run env rule st
    rest.run env fuel rule name st
  | .branch _ t _ _ yes no rest, st => do
    tick env.limits st
    let s ← get
    let (answer, st) ← ofExcept (t.holds env s.pos st)
    let st ← if answer then yes.run env fuel rule name st else no.run env fuel rule name st
    rest.run env fuel rule name st
  | .loop _ _ body rest, st => do
    tick env.limits st
    let st ← whileMatched (fun st => body.run env fuel rule name st) fuel st
    rest.run env fuel rule name st
  | .call _ f pops slots rest, st => do
    tick env.limits st
    let args ← ofExcept (st.peekAll slots)
    let v ← callHost env f args
    let st ← ofExcept (st.popN pops.toNat)
    rest.run env fuel rule name (v :: st)

/-- A rule whose code is read. -/
structure LoadedRule where
  name : String
  body : Block
  deriving DecidableEq, Repr

/-- The rules of a program with their code read. -/
def Program.load (p : Program) : List LoadedRule :=
  p.rules.map fun r => ⟨r.name, Block.read 0 r.code⟩

/-- Runs a rule on a stack of its own, with at most `depth` rules inside one another. -/
def Run.rule (env : Env σ) (rules : List LoadedRule) (fuel : Nat) : (depth : Nat) → Nat → Run σ Value
  | depth, i =>
    match rules[i]? with
    | none => fault (.ruleIndex i)
    | some r =>
      match depth with
      | 0 => fault (.callDepth env.limits.callDepth r.name)
      | depth + 1 => do
        let st ← r.body.run env fuel (Run.rule env rules fuel depth) r.name []
        ofExcept st.top

/-- What a run of a rule leaves. -/
structure Outcome where
  value : Value
  pos : Nat
  report : Report
  deriving DecidableEq

/-- A program, the host of its calls, the limits on its runs, and the passes granted to a loop. -/
structure Machine (σ : Type) where
  program : Program
  host : Host σ
  limits : Limits := {}
  fuel : Nat

namespace Machine

/-- The machine with an input to read. -/
def env (m : Machine σ) (input : String) : Env σ :=
  ⟨m.program, m.host, m.limits, .ofString input⟩

/-- Starts anew; only the state of the host stays. -/
def reset : Run σ Unit := modify fun s => .start s.host

/-- Runs a rule from the start of the input. -/
def run (m : Machine σ) (i : Nat) (input : String) : Run σ Outcome := do
  reset
  let v ← Run.rule (m.env input) m.program.load m.fuel m.limits.callDepth i
  let s ← get
  pure ⟨v, s.pos, s.report⟩

/-- Runs the rule of that name, which has to match the whole input. -/
def parse (m : Machine σ) (start input : String) : Run σ Value := do
  match m.program.ruleIndex? start with
  | none => fault (.unknownRule start)
  | some i => do
    let o ← m.run i input
    if !o.value.isFailed && o.pos == (m.env input).input.size then pure o.value
    else do
      if !o.value.isFailed then
        modify fun s => { s with toProgress := s.toProgress.expect (.other "end of input") }
      let s ← get
      fault (.noParse ⟨s.report.pos, s.report.expected, (m.env input).input[s.report.pos]?⟩)

end Machine
end PegMachine
