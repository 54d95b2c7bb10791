import PegMachine.Machine.Host
import PegMachine.Text.Decimal

/-! Scripted hosts: the code of a function is a name, and a script says what the name does. Every
call is written down. -/
namespace PegMachine

/-- What a function does. Arguments are numbered from 0. -/
inductive Act where
  /-- Answers with a value. -/
  | value (v : Value)
  /-- Answers with the array of the arguments. -/
  | args
  /-- Answers with an argument. -/
  | arg (i : Nat)
  /-- Answers with the text that the call reports on. -/
  | text
  /-- Answers with the two places, the text between them and the input. -/
  | context
  /-- Answers whether an argument is the value. -/
  | equals (i : Nat) (v : Value)
  /-- Answers whether an argument is true. -/
  | truthy (i : Nat)
  /-- Answers with the kind of an argument. -/
  | kind (i : Nat)
  /-- Answers with an argument in words. -/
  | display (i : Nat)
  /-- Answers with the integer that an argument spells. -/
  | integer (i : Nat)
  /-- Answers with the sum of the arguments, modulo 2⁶⁴. -/
  | sum
  /-- Answers with the product of the arguments, modulo 2⁶⁴. -/
  | product
  /-- Refuses the call. -/
  | refuse (words : String)

/-- A call as it was made. -/
structure Call where
  fn : ActionFn
  context : CallContext
  args : List Value

namespace Act

/-- The integers that the values are. -/
def integers : List Value → Except Fault (List Int64)
  | [] => .ok []
  | .integer n :: vs => do
    let ns ← integers vs
    .ok (n :: ns)
  | v :: _ => .error (.host ("not a number: " ++ v.display))

/-- An argument. -/
def argument (args : List Value) (i : Nat) : Except Fault Value :=
  match args[i]? with
  | some v => .ok v
  | none => .error (.host ("no argument " ++ toString i))

/-- The integer that a string spells, if 64 bits hold it. -/
def parseInteger : Value → Except Fault Value
  | .string s =>
    match Text.int? s with
    | some n =>
      if (Int64.ofInt n).toInt = n then .ok (.integer (Int64.ofInt n))
      else .error (.host ("not an integer: " ++ s))
    | none => .error (.host ("not an integer: " ++ s))
  | v => .error (.host ("not a string: " ++ v.display))

/-- The answer to a call. -/
def perform (c : CallContext) (args : List Value) : Act → Except Fault Value
  | .value v => .ok v
  | .args => .ok (.array args)
  | .arg i => argument args i
  | .text => .ok (.string c.text)
  | .context =>
    .ok (.array [.pos c.reported, .pos c.pos, .string c.text, .string (String.ofList c.input.toList)])
  | .equals i v => do
    let w ← argument args i
    .ok (.bool (w = v))
  | .truthy i => do
    let v ← argument args i
    .ok (.bool v.isTruthy)
  | .kind i => do
    let v ← argument args i
    .ok (.string v.kind.name)
  | .display i => do
    let v ← argument args i
    .ok (.string v.display)
  | .integer i => do
    let v ← argument args i
    parseInteger v
  | .sum => do
    let ns ← integers args
    .ok (.integer (ns.foldl (· + ·) 0))
  | .product => do
    let ns ← integers args
    .ok (.integer (ns.foldl (· * ·) 1))
  | .refuse words => .error (.host words)

end Act

/-- What each name does; one that is not listed answers with its arguments. -/
abbrev Script := List (String × Act)

/-- The host of a script. Its state is the calls so far, the last one first. -/
def Script.host (s : Script) : Host (List Call) := fun f c args calls =>
  (((s.lookup f.code).getD .args).perform c args, ⟨f, c, args⟩ :: calls)

end PegMachine
