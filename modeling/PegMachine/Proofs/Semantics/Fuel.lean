import PegMachine.Proofs.Grammar.Induction
import PegMachine.Proofs.Machine.Lockstep
import PegMachine.Proofs.Semantics.Equations

/-! More fuel, or more depth, changes only what had too little of it. -/
namespace PegMachine

variable {σ τ α β : Type} {w w' : EStateM Stop τ α} {fuel fuel' : ℕ}

/-- `w'` ends as `w` does, unless `w` runs out of fuel. -/
def Extends (w w' : EStateM Stop τ α) : Prop :=
  ∀ s, w s = w' s ∨ ∃ t, w s = .error .fuel t

namespace Extends

theorem refl (w : EStateM Stop τ α) : Extends w w := fun _ => .inl rfl

theorem bind {k k' : α → EStateM Stop τ β} (hw : Extends w w') (hk : ∀ a, Extends (k a) (k' a)) :
    Extends (w >>= k) (w' >>= k') := by
  intro s
  change EStateM.bind w k s = EStateM.bind w' k' s ∨ ∃ t, EStateM.bind w k s = _
  unfold EStateM.bind
  rcases hw s with h | ⟨t, h⟩
  · rw [h]
    cases w' s with
    | ok a t => exact hk a t
    | error x t => exact .inl rfl
  · rw [h]
    exact .inr ⟨t, rfl⟩

theorem ite {c : Prop} [Decidable c] {x x' y y' : EStateM Stop τ α} (hx : Extends x x')
    (hy : Extends y y') : Extends (if c then x else y) (if c then x' else y') := by
  split
  · exact hx
  · exact hy

theorem of_fuel : Extends (throw .fuel) w := fun s => .inr ⟨s, rfl⟩

end Extends

namespace Walk

variable {env : Walk.Env σ} {rule rule' : String → Walk σ Value}

theorem extends_silenced {w w' : Walk σ Value} (hw : Extends w w') :
    Extends (silenced w) (silenced w') :=
  (Extends.refl _).bind fun _ => hw.bind fun _ => .refl _

theorem extends_gather {again again' : List Value → Walk σ Value}
    (ha : ∀ vs, Extends (again vs) (again' vs)) (hf : fuel ≤ fuel') (vs : List Value) (v : Value) :
    Extends (gather again fuel vs v) (gather again' fuel' vs v) := by
  induction fuel generalizing fuel' vs v with
  | zero =>
    rw [gather]
    cases fuel' with
    | zero =>
      rw [gather]
      exact .refl _
    | succ fuel' =>
      rw [gather]
      exact .ite (.refl _) .of_fuel
  | succ fuel ih =>
    obtain ⟨fuel', rfl⟩ : ∃ n, fuel' = n + 1 := ⟨fuel' - 1, by omega⟩
    rw [gather, gather]
    exact .ite (.refl _) ((ha _).bind fun v => ih (by omega) _ v)

end Walk

open Walk

section

variable {env : Walk.Env σ} {rule rule' : String → Walk σ Value} {es : List Expr}

theorem extends_walkChoice
    (hes : ∀ e ∈ es, ∀ ls, Extends (e.walk env fuel rule ls) (e.walk env fuel' rule' ls)) :
    Extends (walkChoice env fuel rule es) (walkChoice env fuel' rule' es) := by
  induction es with
  | nil =>
    rw [walkChoice, walkChoice]
    exact .refl _
  | cons e es ih =>
    rw [walkChoice, walkChoice]
    refine (hes e List.mem_cons_self []).bind fun v => ?_
    exact .ite (ih fun d hd => hes d (List.mem_cons_of_mem _ hd)) (.refl _)

theorem extends_walkElements
    (hes : ∀ e ∈ es, ∀ ls, Extends (e.walk env fuel rule ls) (e.walk env fuel' rule' ls))
    (ls : Labels Value) :
    Extends (walkElements env fuel rule es ls) (walkElements env fuel' rule' es ls) := by
  induction es generalizing ls with
  | nil =>
    rw [walkElements, walkElements]
    exact .refl _
  | cons e es ih =>
    rw [walkElements, walkElements]
    refine (hes e List.mem_cons_self ls).bind fun v => ?_
    have hrest := ih (fun d hd => hes d (List.mem_cons_of_mem _ hd)) (e.bind v ls)
    exact .ite (.refl _) (hrest.bind fun r => .refl _)

theorem extends_walkNext {d : Option Expr} {w w' : Walk σ Value}
    (hd : ∀ e ∈ d, ∀ ls, Extends (e.walk env fuel rule ls) (e.walk env fuel' rule' ls))
    (hw : Extends w w') : Extends (walkNext env fuel rule w d) (walkNext env fuel' rule' w' d) := by
  cases d with
  | none =>
    rw [walkNext, walkNext]
    exact hw
  | some d =>
    rw [walkNext, walkNext]
    refine (Extends.refl _).bind fun p => (hd d rfl []).bind fun v => ?_
    exact .ite (.refl _) (hw.bind fun v => .refl _)

theorem Expr.extends_walk (hrule : ∀ name, Extends (rule name) (rule' name)) (hf : fuel ≤ fuel')
    (e : Expr) (ls : Labels Value) :
    Extends (e.walk env fuel rule ls) (e.walk env fuel' rule' ls) := by
  induction e using Expr.inner_induction generalizing ls with
  | inner e hp hpp =>
    cases e with
    | named name e =>
      rw [Expr.walk, Expr.walk]
      exact (extends_silenced (hp e List.mem_cons_self ls)).bind fun v => .refl _
    | choice es =>
      rw [Expr.walk, Expr.walk]
      exact extends_walkChoice hp
    | action e code =>
      cases hl : e.hasElements with
      | true =>
        obtain ⟨d, es, rfl⟩ := Expr.eq_sequence hl
        rw [Expr.walk_actionOfElements, Expr.walk_actionOfElements]
        refine (Extends.refl _).bind fun p => ?_
        exact (extends_walkElements (hpp _ List.mem_cons_self) []).bind fun r => .refl _
      | false =>
        rw [Expr.walk_action hl, Expr.walk_action hl]
        refine (Extends.refl _).bind fun p => ?_
        exact (hp e List.mem_cons_self []).bind fun v => .refl _
    | sequence es =>
      rw [Expr.walk_sequence, Expr.walk_sequence]
      refine (Extends.refl _).bind fun p => ?_
      exact (extends_walkElements hp ls).bind fun r => .refl _
    | labeled label e =>
      rw [Expr.walk, Expr.walk]
      exact hp e List.mem_cons_self []
    | text e =>
      rw [Expr.walk, Expr.walk]
      exact (Extends.refl _).bind fun p => (hp e List.mem_cons_self []).bind fun v => .refl _
    | followedBy e | notFollowedBy e =>
      rw [Expr.walk, Expr.walk]
      refine (Extends.refl _).bind fun p => ?_
      exact (extends_silenced (hp e List.mem_cons_self [])).bind fun v => .refl _
    | guard code | guardNot code =>
      rw [Expr.walk, Expr.walk]
      exact .refl _
    | optional e =>
      rw [Expr.walk, Expr.walk]
      exact (hp e List.mem_cons_self []).bind fun v => .refl _
    | zeroOrMore e =>
      rw [Expr.walk, Expr.walk]
      have he := hp e List.mem_cons_self []
      exact he.bind fun v => (extends_gather (fun _ => he) hf [] v).bind fun vs => .refl _
    | oneOrMore e =>
      rw [Expr.walk, Expr.walk]
      have he := hp e List.mem_cons_self []
      refine he.bind fun v => .ite (.refl _) ?_
      exact (extends_gather (fun _ => he) hf [] v).bind fun vs => .refl _
    | bounded e min max d =>
      rw [Expr.walk, Expr.walk]
      have he := hp e List.mem_cons_self []
      have hnext := extends_walkNext
        (fun d hd => hp d (List.mem_cons_of_mem _ (by simpa using hd))) he
      refine he.bind fun v => ?_
      exact (extends_gather (fun vs => .ite (.refl _) hnext) hf [] v).bind fun vs => .refl _
    | rule name =>
      rw [Expr.walk, Expr.walk]
      exact hrule name
    | literal value ignoreCase =>
      rw [Expr.walk, Expr.walk]
      exact .refl _
    | charClass k text =>
      rw [Expr.walk, Expr.walk]
      exact .refl _
    | any =>
      rw [Expr.walk, Expr.walk]
      exact .refl _

end

theorem Grammar.extends_walk (g : Grammar) (env : Walk.Env σ) (hf : fuel ≤ fuel') {d d' : ℕ}
    (hd : d ≤ d') (i : ℕ) : Extends (g.walk env fuel d i) (g.walk env fuel' d' i) := by
  induction d generalizing d' i with
  | zero =>
    rw [Grammar.walk, Grammar.walk]
    cases g.rules[i]? with
    | none => exact .refl _
    | some r => exact .of_fuel
  | succ d ih =>
    obtain ⟨d', rfl⟩ : ∃ n, d' = n + 1 := ⟨d' - 1, by omega⟩
    rw [Grammar.walk, Grammar.walk]
    cases g.rules[i]? with
    | none => exact .refl _
    | some r =>
      refine r.body.extends_walk (fun name => ?_) hf []
      cases g.ruleIndex? name with
      | none => exact .refl _
      | some j => exact ih (by omega) j

namespace Run

theorem extends_whileMatched {body body' : Stack → Run σ Stack}
    (hb : ∀ S, Extends (body S) (body' S)) (hf : fuel ≤ fuel') (S : Stack) :
    Extends (whileMatched body fuel S) (whileMatched body' fuel' S) := by
  induction fuel generalizing fuel' S with
  | zero =>
    rw [whileMatched]
    cases fuel' with
    | zero =>
      rw [whileMatched]
      exact .refl _
    | succ fuel' =>
      rw [whileMatched]
      exact (Extends.refl _).bind fun v => .ite (.refl _) .of_fuel
  | succ fuel ih =>
    obtain ⟨fuel', rfl⟩ : ∃ n, fuel' = n + 1 := ⟨fuel' - 1, by omega⟩
    rw [whileMatched, whileMatched]
    refine (Extends.refl _).bind fun v => .ite (.refl _) ?_
    exact (hb S).bind fun S' => ih (by omega) S'

end Run

theorem Extends.lockstep (env : Env σ) : Lockstep env env fun _ => Extends where
  pure _ := .refl _
  stop _ := .refl _
  bind := .bind
  tick _ := .refl _
  instr {i} hi _ _ _ := by
    cases i with
    | rule j => exact absurd rfl (hi j)
    | _ => exact .refl _
  test _ _ := .refl _
  call _ _ := .refl _

theorem Run.extends_rule (env : Env σ) (rules : List LoadedRule) (hf : fuel ≤ fuel') (d i : ℕ) :
    Extends (Run.rule env rules fuel d i) (Run.rule env rules fuel' d i) := by
  induction d generalizing i with
  | zero =>
    rw [Run.rule, Run.rule]
    exact .refl _
  | succ d ih =>
    rw [Run.rule, Run.rule]
    cases rules[i]? with
    | none => exact .refl _
    | some r =>
      have hloop (body body' : Stack → Run σ Stack) (hb : ∀ S, Extends (body S) (body' S)) (S : Stack) :
          Extends (whileMatched body fuel S) (whileMatched body' fuel' S) :=
        extends_whileMatched hb hf S
      exact ((Extends.lockstep env).block_of_loops ih hloop r.body []).bind fun S => .refl _

end PegMachine
