import PegMachine.Code.Block
import PegMachine.Code.Program
import PegMachine.Machine.Stack
import PegMachine.Machine.State

/-! Single instructions. -/
namespace PegMachine

/-- Limits on a run. -/
structure Limits where
  /-- Rules inside one another. -/
  callDepth : Nat := 1000
  /-- Instructions. -/
  steps : Option Nat := none
  /-- Values on the stack of a rule when an instruction starts. -/
  stack : Nat := 10000
  deriving DecidableEq, Repr

/-- The machine with an input to read. -/
structure Env (σ : Type) where
  program : Program
  host : Host σ
  limits : Limits
  input : Input

variable {σ : Type}

namespace Program

/-- The value of a constant that can be pushed. -/
def value (p : Program) (i : UInt32) : Except Fault Value :=
  match p.constant? i with
  | some .failed => .ok .failed
  | some .undefined => .ok .undefined
  | some .null => .ok .null
  | some .emptyArray => .ok (.array [])
  | some (.string s) => .ok (.string s)
  | some (.bound b) => .ok (.bound b)
  | _ => .error (.badConstant i .value)

def string (p : Program) (i : UInt32) : Except Fault String :=
  match p.constant? i with
  | some (.string s) => .ok s
  | _ => .error (.badConstant i .string)

def charClass (p : Program) (i : UInt32) : Except Fault CharClass :=
  match p.constant? i with
  | some (.charClass k) => .ok k
  | _ => .error (.badConstant i .charClass)

def expectation (p : Program) (i : UInt32) : Except Fault Expectation :=
  match p.constant? i with
  | some (.expectation e) => .ok e
  | _ => .error (.badConstant i .expectation)

def function (p : Program) (i : UInt32) : Except Fault ActionFn :=
  match p.constant? i with
  | some (.function f) => .ok f
  | _ => .error (.badConstant i .function)

end Program

/-- The answer to a test at place `p`, and the stack after it. -/
def Test.holds (env : Env σ) (p : Nat) : Test → Stack → Except Fault (Bool × Stack)
  | .isTrue, st => do
    let v ← st.top
    .ok (v.isTruthy, st)
  | .isFailed, st => do
    let v ← st.top
    .ok (v.isFailed, st)
  | .isMatched, st => do
    let v ← st.top
    .ok (!v.isFailed, st)
  | .isShort, st => do
    let (v, st) ← st.pop
    let b ← Stack.bound v
    let a ← st.top
    let vs ← Stack.items a
    .ok (b.any fun n => vs.length < n.toNat, st)
  | .isFull, st => do
    let (v, st) ← st.pop
    let b ← Stack.bound v
    let a ← st.top
    let vs ← Stack.items a
    .ok (b.any fun n => n.toNat ≤ vs.length, st)
  | .any, st => .ok (decide (p < env.input.size), st)
  | .string i, st => do
    let s ← env.program.string i
    .ok (Input.hasAt env.input p s, st)
  | .folded i, st => do
    let s ← env.program.string i
    .ok (Input.hasFoldedAt env.input p s, st)
  | .charClass i, st => do
    let k ← env.program.charClass i
    .ok (env.input[p]?.any k.accepts, st)

open Run

/-- Runs an instruction; `rule` runs a rule. -/
def Instr.run (env : Env σ) (rule : Nat → Run σ Value) : Instr → Stack → Run σ Stack
  | .push c, st => do
    let v ← ofExcept (env.program.value c)
    pure (v :: st)
  | .pushPos, st => do
    let s ← get
    pure (.pos s.pos :: st)
  | .pop, st => do
    let (_, st) ← ofExcept st.pop
    pure st
  | .popPos, st => do
    let (v, st) ← ofExcept st.pop
    let p ← ofExcept (Stack.place v)
    seek p
    pure st
  | .popN n, st => ofExcept (st.popN n.toNat)
  | .nip, st => ofExcept st.nip
  | .append, st => ofExcept st.append
  | .wrap n, st => ofExcept (st.wrap n.toNat)
  | .text, st => do
    let (_, st) ← ofExcept st.pop
    let v ← ofExcept st.top
    let p ← ofExcept (Stack.place v)
    let s ← get
    pure (.string (Input.slice env.input p s.pos) :: st)
  | .acceptN n, st => do
    let s ← get
    let p := min (s.pos + n.toNat) env.input.size
    seek p
    pure (.string (Input.slice env.input s.pos p) :: st)
  | .acceptString i, st => do
    let t ← ofExcept (env.program.string i)
    let s ← get
    seek (s.pos + t.length)
    pure (.string t :: st)
  | .fail i, st => do
    let e ← ofExcept (env.program.expectation i)
    modify fun s => { s with toProgress := s.toProgress.fail e }
    pure (.failed :: st)
  | .reportSaved k, st => do
    let v ← ofExcept (st.peek k.toNat)
    let p ← ofExcept (Stack.place v)
    modify fun s => { s with reported := p }
    pure st
  | .reportHere, st => do
    modify fun s => { s with reported := s.pos }
    pure st
  | .rule i, st => do
    let v ← rule i.toNat
    pure (v :: st)
  | .silenceOn, st => do
    modify fun s => { s with silence := s.silence + 1 }
    pure st
  | .silenceOff, st => do
    modify fun s => { s with silence := s.silence - 1 }
    pure st

/-- Calls function `i` with the given arguments. -/
def Run.callHost (env : Env σ) (i : UInt32) (args : List Value) : Run σ Value := do
  let f ← ofExcept (env.program.function i)
  let s ← get
  let (answer, p) := s.toProgress.call env.host env.input s.reported f args
  set { s with toProgress := p }
  match answer with
  | .ok v => pure v
  | .error e => throw (.host e)

/-- Counts an instruction that starts on the given stack. -/
def Run.tick (limits : Limits) (st : Stack) : Run σ Unit := do
  modify fun s => { s with steps := s.steps + 1 }
  let s ← get
  match limits.steps with
  | some n => if n < s.steps then fault (.stepLimit n)
  | none => pure ()
  if limits.stack < st.length then fault (.stackLimit limits.stack)

end PegMachine
