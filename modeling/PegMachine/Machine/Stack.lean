import PegMachine.Machine.Fault

/-! The stack of a rule: a list of values, the top first. -/
namespace PegMachine

/-- The values of a rule, the top first. -/
abbrev Stack := List Value

namespace Stack

/-- The top and the stack below it. -/
def pop : Stack → Except Fault (Value × Stack)
  | [] => .error (.stackUnderflow 1 0)
  | v :: st => .ok (v, st)

/-- The top. -/
def top : Stack → Except Fault Value
  | [] => .error (.stackUnderflow 1 0)
  | v :: _ => .ok v

/-- The stack without its top `n` values. -/
def popN (n : Nat) (st : Stack) : Except Fault Stack :=
  if st.length < n then .error (.stackUnderflow n st.length) else .ok (st.drop n)

/-- The value `k` places below the top. -/
def peek (st : Stack) (k : Nat) : Except Fault Value :=
  match st[k]? with
  | some v => .ok v
  | none => .error (.stackUnderflow (k + 1) st.length)

/-- The values at the given places below the top. -/
def peekAll (st : Stack) : List UInt32 → Except Fault (List Value)
  | [] => .ok []
  | k :: ks => do
    let v ← st.peek k.toNat
    let vs ← st.peekAll ks
    .ok (v :: vs)

/-- The place that a value stands for. -/
def place : Value → Except Fault Nat
  | .pos p => .ok p
  | v => .error (.typeError .pos v.kind)

/-- The items of an array. -/
def items : Value → Except Fault (List Value)
  | .array vs => .ok vs
  | v => .error (.typeError .array v.kind)

/-- The bound that a value stands for. -/
def bound : Value → Except Fault (Option UInt32)
  | .bound b => .ok b
  | v => .error (.typeError .bound v.kind)

/-- The stack with the value on top appended to the array below it. -/
def append : Stack → Except Fault Stack
  | [] => .error (.stackUnderflow 1 0)
  | [_] => .error (.stackUnderflow 2 1)
  | v :: a :: st => do
    let vs ← items a
    .ok (.array (vs ++ [v]) :: st)

/-- The stack with its top `n` values in an array. -/
def wrap (n : Nat) (st : Stack) : Except Fault Stack :=
  if st.length < n then .error (.stackUnderflow n st.length)
  else .ok (.array (st.take n).reverse :: st.drop n)

/-- The stack without the value under its top. -/
def nip : Stack → Except Fault Stack
  | v :: _ :: st => .ok (v :: st)
  | _ => .error (.stackUnderflow 1 0)

end Stack
end PegMachine
