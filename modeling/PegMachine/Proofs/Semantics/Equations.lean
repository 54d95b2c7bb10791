import Mathlib
import PegMachine.Compile.Expr
import PegMachine.Semantics.Walk

/-! Walks of sequences. A sequence and a sequence with an action are walked alike, up to what
follows their elements. -/
namespace PegMachine

variable {σ : Type} {env : Walk.Env σ} {fuel : ℕ} {wrule : String → Walk σ Value} {e : Expr}
  {es : List Expr} {ls : Labels Value} {code : String} {p : ℕ}

open Walk

theorem Expr.eq_sequence (hl : e.hasElements = true) : ∃ d es, e = .sequence (d :: es) := by
  cases e with
  | sequence es =>
    cases es with
    | nil => cases hl
    | cons d es => exact ⟨d, es, rfl⟩
  | _ => cases hl

theorem Expr.walk_action (hl : e.hasElements = false) :
    (Expr.action e code).walk env fuel wrule ls = (do
      let p ← place
      let v ← e.walk env fuel wrule []
      if v.isFailed then pure v else Walk.call env p code (e.bind v [])) := by
  rw [Expr.walk]
  rintro d es rfl
  cases hl

/-- What follows the elements of a sequence: the call of its action, or an array of the values. -/
def Walk.finish (env : Walk.Env σ) (p : ℕ) :
    Option String → List Value → Labels Value → Walk σ Value
  | none, vs, _ => pure (.array vs)
  | some code, _, ls => Walk.call env p code ls

/-- What a sequence does after its elements: `vs` are the values of those before. -/
def Walk.settle (env : Walk.Env σ) (p : ℕ) (action : Option String) (vs : List Value) :
    Option (List Value × Labels Value) → Walk σ Value
  | some (ws, ls) => finish env p action (vs ++ ws) ls
  | none => do
    seek p
    pure .failed

theorem Expr.walk_sequence :
    (Expr.sequence es).walk env fuel wrule ls = (do
      let p ← place
      walkElements env fuel wrule es ls >>= settle env p none []) := by
  rw [Expr.walk]
  refine bind_congr fun p => bind_congr fun r => ?_
  cases r <;> rfl

theorem Expr.walk_actionOfElements :
    (Expr.action (.sequence (e :: es)) code).walk env fuel wrule ls = (do
      let p ← place
      walkElements env fuel wrule (e :: es) [] >>= settle env p (some code) []) := by
  rw [Expr.walk]
  refine bind_congr fun p => bind_congr fun r => ?_
  cases r <;> rfl

/-- A sequence goes on with its next element, or is settled where that one failed. -/
theorem Walk.walkElements_settle {action : Option String} {vs : List Value} :
    walkElements env fuel wrule (e :: es) ls >>= settle env p action vs = (do
      let v ← e.walk env fuel wrule ls
      if v.isFailed then do
        seek p
        pure .failed
      else walkElements env fuel wrule es (e.bind v ls) >>= settle env p action (vs ++ [v])) := by
  rw [walkElements, bind_assoc]
  refine bind_congr fun v => ?_
  cases v.isFailed with
  | true => rfl
  | false =>
    change ((walkElements env fuel wrule es (e.bind v ls) >>= _) >>= _) = _
    rw [bind_assoc]
    refine bind_congr fun r => ?_
    cases r with
    | none => rfl
    | some r => simp [settle]

end PegMachine
