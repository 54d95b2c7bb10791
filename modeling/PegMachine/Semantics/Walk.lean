import PegMachine.Labels
import PegMachine.Machine.State

/-! The meaning of a grammar: a parser that walks its expressions. `fuel` bounds the passes of each
repetition and `depth` the rules inside one another. -/
namespace PegMachine

variable {σ : Type}

/-- A part of a walk. -/
abbrev Walk (σ : Type) := EStateM Stop (Progress σ)

/-- What a walk reads and whom it asks. -/
structure Walk.Env (σ : Type) where
  host : Host σ
  input : Input

namespace Walk

/-- The place in the input. -/
def place : Walk σ Nat := do
  let s ← get
  pure s.pos

/-- Goes to another place. -/
def seek (p : Nat) : Walk σ Unit := modify fun s => { s with pos := p }

/-- A walk that records no failures. -/
def silenced (w : Walk σ Value) : Walk σ Value := do
  modify fun s => { s with silence := s.silence + 1 }
  let v ← w
  modify fun s => { s with silence := s.silence - 1 }
  pure v

/-- Fails for want of what is expected. -/
def expecting (e : Expectation) : Walk σ Value := do
  modify fun s => s.fail e
  pure .failed

/-- Moves over `n` characters, as far as there are any, and yields them. -/
def accept (env : Env σ) (n : Nat) : Walk σ Value := do
  let p ← place
  let q := min (p + n) env.input.size
  seek q
  pure (.string (env.input.slice p q))

/-- Asks the host to run `code` on the labels. -/
def call (env : Env σ) (reported : Nat) (code : String) (ls : Labels Value) : Walk σ Value := do
  let s ← get
  let (answer, t) := s.call env.host env.input reported ⟨ls.names, code⟩ ls.values
  set t
  match answer with
  | .ok v => pure v
  | .error e => throw (.host e)

/-- Gathers values until an attempt fails; `v` is the last attempt, and `again` makes the next one
from the values so far. -/
def gather (again : List Value → Walk σ Value) :
    (fuel : Nat) → List Value → Value → Walk σ (List Value)
  | fuel, vs, v =>
    if v.isFailed then pure vs
    else match fuel with
      | 0 => throw .fuel
      | fuel + 1 => do
        let w ← again (vs ++ [v])
        gather again fuel (vs ++ [v]) w

/-- The text of a literal. -/
def literal (env : Env σ) (value : String) (ignoreCase : Bool) : Walk σ Value :=
  if value.isEmpty then pure (.string "")
  else do
    let p ← place
    if ignoreCase then
      if env.input.hasFoldedAt p (Text.lower value) then accept env value.length
      else expecting (.ofLiteral value)
    else if env.input.hasAt p value then do
      seek (p + value.length)
      pure (.string value)
    else expecting (.ofLiteral value)

/-- A character that satisfies the test. -/
def one (env : Env σ) (test : Char → Bool) (e : Expectation) : Walk σ Value := do
  let p ← place
  if env.input[p]?.any test then accept env 1 else expecting e

/-- Success where `code` answers as wanted. -/
def guard (env : Env σ) (wanted : Bool) (code : String) (ls : Labels Value) : Walk σ Value := do
  let p ← place
  let v ← call env p code ls
  pure (if v.isTruthy = wanted then .undefined else .failed)

end Walk

open Walk

mutual

/-- Walks an expression where the given labels are in scope; `rule` walks the rule of a name. -/
def Expr.walk (env : Walk.Env σ) (fuel : Nat) (rule : String → Walk σ Value) :
    Expr → Labels Value → Walk σ Value
  | .named name e, ls => do
    let v ← silenced (e.walk env fuel rule ls)
    if v.isFailed then expecting (.other name) else pure v
  | .choice es, _ => walkChoice env fuel rule es
  | .action e code, _ =>
    match e with
    | .sequence (e :: es) => do
      let p ← place
      match ← walkElements env fuel rule (e :: es) [] with
      | some (_, ls) => call env p code ls
      | none => do
        seek p
        pure .failed
    | e => do
      let p ← place
      let v ← e.walk env fuel rule []
      if v.isFailed then pure v else call env p code (e.bind v [])
  | .sequence es, ls => do
    let p ← place
    match ← walkElements env fuel rule es ls with
    | some (vs, _) => pure (.array vs)
    | none => do
      seek p
      pure .failed
  | .labeled _ e, _ => e.walk env fuel rule []
  | .text e, _ => do
    let p ← place
    let v ← e.walk env fuel rule []
    if v.isFailed then pure v
    else do
      let q ← place
      pure (.string (env.input.slice p q))
  | .followedBy e, _ => do
    let p ← place
    let v ← silenced (e.walk env fuel rule [])
    if v.isFailed then pure .failed
    else do
      seek p
      pure .undefined
  | .notFollowedBy e, _ => do
    let p ← place
    let v ← silenced (e.walk env fuel rule [])
    if v.isFailed then pure .undefined
    else do
      seek p
      pure .failed
  | .guard code, ls => Walk.guard env true code ls
  | .guardNot code, ls => Walk.guard env false code ls
  | .optional e, _ => do
    let v ← e.walk env fuel rule []
    pure (if v.isFailed then .null else v)
  | .zeroOrMore e, _ => do
    let v ← e.walk env fuel rule []
    let vs ← gather (fun _ => e.walk env fuel rule []) fuel [] v
    pure (.array vs)
  | .oneOrMore e, _ => do
    let v ← e.walk env fuel rule []
    if v.isFailed then pure v
    else do
      let vs ← gather (fun _ => e.walk env fuel rule []) fuel [] v
      pure (.array vs)
  | .bounded e min max d, _ => do
    let v ← e.walk env fuel rule []
    let vs ← gather (fun vs =>
      if max.any fun n => n.toNat ≤ vs.length then pure .failed
      else walkNext env fuel rule (e.walk env fuel rule []) d) fuel [] v
    pure (if min.any fun n => vs.length < n.toNat then .failed else .array vs)
  | .rule name, _ => rule name
  | .literal value ignoreCase, _ => Walk.literal env value ignoreCase
  | .charClass k text, _ => one env k.accepts (.ofClass text)
  | .any, _ => one env (fun _ => true) .anyChar

/-- Walks alternatives until one matches. -/
def walkChoice (env : Walk.Env σ) (fuel : Nat) (rule : String → Walk σ Value) :
    List Expr → Walk σ Value
  | [] => pure .failed
  | e :: es => do
    let v ← e.walk env fuel rule []
    if v.isFailed then walkChoice env fuel rule es else pure v

/-- Walks elements while they match; each sees the labels of those before it. Yields their values
and the labels after them. -/
def walkElements (env : Walk.Env σ) (fuel : Nat) (rule : String → Walk σ Value) :
    List Expr → Labels Value → Walk σ (Option (List Value × Labels Value))
  | [], ls => pure (some ([], ls))
  | e :: es, ls => do
    let v ← e.walk env fuel rule ls
    if v.isFailed then pure none
    else do
      let r ← walkElements env fuel rule es (e.bind v ls)
      pure (r.map fun (vs, ls) => (v :: vs, ls))

/-- A later attempt of a bounded repetition: a delimiter, if there is one, and the operand. Where the
operand fails, the place before the delimiter is gone back to. -/
def walkNext (env : Walk.Env σ) (fuel : Nat) (rule : String → Walk σ Value) (operand : Walk σ Value) :
    Option Expr → Walk σ Value
  | none => operand
  | some d => do
    let p ← place
    let w ← d.walk env fuel rule []
    if w.isFailed then pure w
    else do
      let v ← operand
      if v.isFailed then do
        seek p
        pure .failed
      else pure v

end

/-- Walks the rule numbered `i`. -/
def Grammar.walk (g : Grammar) (env : Walk.Env σ) (fuel : Nat) : (depth : Nat) → Nat → Walk σ Value
  | depth, i =>
    match g.rules[i]? with
    | none => throw (.fault (.ruleIndex i))
    | some r =>
      match depth with
      | 0 => throw .fuel
      | depth + 1 =>
        r.body.walk env fuel (fun name =>
          match g.ruleIndex? name with
          | some j => Grammar.walk g env fuel depth j
          | none => throw (.fault (.unknownRule name))) []

end PegMachine
