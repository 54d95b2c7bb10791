import PegMachine.Proofs.Semantics.Binding
import PegMachine.Proofs.Semantics.Rollback

/-! Where lookahead leaves the place in the input. The predicates save the place before their operand
and go back to it where the operand has matched. Where the operand has failed, the saved place is only
dropped, so what a failed operand has moved over stays behind. -/
namespace PegMachine

variable {σ : Type}

/-- The predicate on an expression that holds where it matches, or the negated one. -/
def Expr.lookahead (negated : Bool) (e : Expr) : Expr :=
  if negated then .notFollowedBy e else .followedBy e

open Run

namespace Activation

variable (A : Activation σ)

/-- Answers for an operand with the value `v` that was started at place `p`, and goes back there unless
the operand has failed. -/
def answer (negated : Bool) (v : Value) (p : ℕ) (S : Stack) : Run σ Stack := do
  tick A.env.limits (v :: .pos p :: S)
  tick A.env.limits (v :: .pos p :: S)
  tick A.env.limits (.pos p :: S)
  (if v.isFailed then pure () else seek p)
  tick A.env.limits S
  pure ((if v.isFailed = negated then .undefined else .failed) :: S)

/-- Runs the code of an operand in silence, above the place where it is started. -/
def lookahead (negated : Bool) (inner : Code) (S : Stack) : Run σ Stack := do
  tick A.env.limits S
  let s ← get
  tick A.env.limits (.pos s.pos :: S)
  modify fun s => { s with silence := s.silence + 1 }
  let v ← A.value inner (.pos s.pos :: S)
  tick A.env.limits (v :: .pos s.pos :: S)
  modify fun s => { s with silence := s.silence - 1 }
  A.answer negated v s.pos S

end Activation

variable {K : List Constant} {rules : String → Option ℕ} {e : Expr} {ctx : Context} {s : Scope}
  {c inner answer : Code} {negated : Bool}

/-- The two bodies of the test behind an operand. The one that goes back is that of a match. -/
def AnswerCode (negated : Bool) (undefined failed : UInt32) (answer : Code) : Prop :=
  (if negated then
    Code.branch (Test.words .isFailed) (Code.seq [.pop, .pop, .push undefined])
      (Code.seq [.pop, .popPos, .push failed])
  else
    Code.branch (Test.words .isMatched) (Code.seq [.pop, .popPos, .push undefined])
      (Code.seq [.pop, .pop, .push failed])) = .ok answer

section

open Compile

theorem yields_answer (negated : Bool) (undefined failed : UInt32) (inner : Code) :
    Yields K (predicate negated undefined failed inner) fun c => ∃ answer,
      AnswerCode negated undefined failed answer ∧
      c = Code.seq [.pushPos, .silenceOn] ++ inner ++ Code.seq [.silenceOff] ++ answer := by
  cases negated with
  | true =>
    refine (yields_branch _ _ _).bind fun answer => ?_
    exact .pure fun ha => ⟨answer, ha, rfl⟩
  | false =>
    refine (yields_branch _ _ _).bind fun answer => ?_
    exact .pure fun ha => ⟨answer, ha, rfl⟩

theorem Expr.yields_lookahead (negated : Bool) (e : Expr) (ctx : Context) (s : Scope) :
    Yields K ((e.lookahead negated).compile rules ctx s) fun c => ∃ undefined failed inner answer,
      Numbers K undefined .undefined ∧ Numbers K failed .failed ∧
      e.HasCode K rules (ctx.push 1) [] inner ∧ AnswerCode negated undefined failed answer ∧
      c = Code.seq [.pushPos, .silenceOn] ++ inner ++ Code.seq [.silenceOff] ++ answer := by
  cases negated with
  | true | false =>
    refine (yields_intern _).bind fun undefined => (yields_intern _).bind fun failed => ?_
    refine (e.yields_code _ _).bind fun inner => (yields_answer _ _ _ _).mono fun c hc he hd hu => ?_
    obtain ⟨answer, ha, rfl⟩ := hc
    exact ⟨undefined, failed, inner, answer, hu, hd, he, ha, rfl⟩

end

namespace Activation

variable {A : Activation σ} {undefined failed : UInt32} {v : Value} {S S' : Stack} {p : ℕ}
  {t t' : State σ}

theorem exec_answer (ha : AnswerCode negated undefined failed answer)
    (hu : A.Has undefined .undefined) (hd : A.Has failed .failed) (ip : ℕ) (v : Value) (p : ℕ)
    (S : Stack) : A.exec ip answer (v :: .pos p :: S) = A.answer negated v p S := by
  have hback {k : UInt32} {w : Constant} {u : Value} (hk : A.Has k w) (hw : w.value? = some u)
      (ip : ℕ) : A.exec ip (Code.seq [.pop, .popPos, .push k]) (v :: .pos p :: S) = (do
        tick A.env.limits (v :: .pos p :: S)
        tick A.env.limits (.pos p :: S)
        seek p
        tick A.env.limits S
        pure (u :: S)) := by
    rw [Code.seq_cons, exec_moves Instr.moves_pop, Code.seq_cons]
    simp only [exec_popPos]
    rw [Code.seq_cons, exec_moves (hk.push hw), Code.seq_nil, exec_nil]
  have hdrop {k : UInt32} {w : Constant} {u : Value} (hk : A.Has k w) (hw : w.value? = some u)
      (ip : ℕ) : A.exec ip (Code.seq [.pop, .pop, .push k]) (v :: .pos p :: S) = (do
        tick A.env.limits (v :: .pos p :: S)
        tick A.env.limits (.pos p :: S)
        tick A.env.limits S
        pure (u :: S)) := by
    rw [Code.seq_cons, exec_moves Instr.moves_pop, exec_replace hk hw]
  cases negated with
  | true =>
    obtain ⟨j, k, hx⟩ := exec_test (A := A) (S := v :: .pos p :: S) v.isFailed ha (fun _ => rfl) ip
    rw [hx, hback hd rfl, hdrop hu rfl, Activation.answer]
    cases v.isFailed <;> rfl
  | false =>
    obtain ⟨j, k, hx⟩ := exec_test (A := A) (S := v :: .pos p :: S) (!v.isFailed) ha (fun _ => rfl) ip
    rw [hx, hback hu rfl, hdrop hd rfl, Activation.answer]
    cases v.isFailed <;> rfl

theorem exec_lookahead (hi : e.Shape K rules ctx s inner)
    (ha : AnswerCode negated undefined failed answer) (hu : A.Has undefined .undefined)
    (hd : A.Has failed .failed) (ip : ℕ) (S : Stack) :
    A.exec ip (Code.seq [.pushPos, .silenceOn] ++ inner ++ Code.seq [.silenceOff] ++ answer) S =
      A.lookahead negated inner S := by
  have hpos : Instr.pushPos.run A.env A.rule S = get >>= fun s => pure (.pos s.pos :: S) := rfl
  have hon (T : Stack) : Instr.silenceOn.run A.env A.rule T =
      (modify fun s => { s with silence := s.silence + 1 }) >>= fun _ => pure T := rfl
  have hoff (T : Stack) : Instr.silenceOff.run A.env A.rule T =
      (modify fun s => { s with silence := s.silence - 1 }) >>= fun _ => pure T := rfl
  simp only [Code.seq_cons, Code.seq_nil, List.append_nil, List.append_assoc]
  simp only [exec_words, hpos, hon, hoff, exec_append hi.whole, exec_expr hi,
    exec_answer ha hu hd, bind_assoc, pure_bind]
  rfl

theorem answer_eq_ok (h : A.answer negated v p S t = .ok S' t') :
    S' = (if v.isFailed = negated then .undefined else .failed) :: S ∧
      t'.pos = if v.isFailed then t.pos else p := by
  obtain ⟨_, t₁, h₁, h⟩ := bind_eq_ok.mp h
  obtain ⟨_, t₂, h₂, h⟩ := bind_eq_ok.mp h
  obtain ⟨_, t₃, h₃, h⟩ := bind_eq_ok.mp h
  obtain ⟨_, t₄, h₄, h⟩ := bind_eq_ok.mp h
  obtain ⟨_, t₅, h₅, h⟩ := bind_eq_ok.mp h
  obtain ⟨rfl, rfl⟩ := pure_eq_ok.mp h
  obtain rfl := tick_eq_ok h₁
  obtain rfl := tick_eq_ok h₂
  obtain rfl := tick_eq_ok h₃
  obtain rfl := tick_eq_ok h₅
  refine ⟨rfl, ?_⟩
  cases hf : v.isFailed with
  | true =>
    rw [hf] at h₄
    obtain ⟨-, rfl⟩ := pure_eq_ok.mp h₄
    rfl
  | false =>
    rw [hf] at h₄
    cases h₄
    rfl

/-- What has become of the place when a predicate has come to its end. -/
theorem lookahead_eq_ok (h : A.lookahead negated inner S t = .ok S' t') :
    ∃ v u u', u.toProgress = { t.toProgress with silence := t.silence + 1 } ∧
      A.value inner (.pos t.pos :: S) u = .ok v u' ∧
      S' = (if v.isFailed = negated then .undefined else .failed) :: S ∧
      t'.pos = if v.isFailed then u'.pos else t.pos := by
  obtain ⟨_, t₁, h₁, h⟩ := bind_eq_ok.mp h
  obtain ⟨_, t₂, h₂, h⟩ := bind_eq_ok.mp h
  cases h₂
  obtain ⟨_, t₃, h₃, h⟩ := bind_eq_ok.mp h
  obtain ⟨_, u, h₄, h⟩ := bind_eq_ok.mp h
  cases h₄
  obtain ⟨v, u', hv, h⟩ := bind_eq_ok.mp h
  obtain ⟨_, t₆, h₆, h⟩ := bind_eq_ok.mp h
  obtain ⟨_, t₇, h₇, h⟩ := bind_eq_ok.mp h
  cases h₇
  obtain rfl := tick_eq_ok h₁
  obtain rfl := tick_eq_ok h₃
  obtain rfl := tick_eq_ok h₆
  obtain ⟨hS, hpos⟩ := answer_eq_ok h
  exact ⟨v, _, u', rfl, hv, hS, hpos⟩

end Activation

namespace Grammar

variable {g : Grammar} {m : Machine σ} {verify : Bool}

/-- A predicate whose operand matches, or fails where it has started, does not move. One whose operand
fails at another place ends there. -/
theorem generate_lookahead (hg : g.generate verify = .ok m.program)
    (hc : (e.lookahead negated).HasCode m.program.consts g.ruleIndex? ctx s c) (input : String)
    (depth : ℕ) (name : String) : let A := m.activation input depth name
    ∃ inner, e.HasCode m.program.consts g.ruleIndex? (ctx.push 1) [] inner ∧
      ∀ ip S S' t t', A.exec ip c S t = .ok S' t' →
        (m.host.NeverFails → g.Steady e → t'.pos = t.pos) ∧
        ∃ v u u', u.toProgress = { t.toProgress with silence := t.silence + 1 } ∧
          A.value inner (.pos t.pos :: S) u = .ok v u' ∧
          S' = (if v.isFailed = negated then .undefined else .failed) :: S ∧
          t'.pos = if v.isFailed then u'.pos else t.pos := by
  intro A
  have hmakes := generate_makes hg
  obtain ⟨undefined, failed, inner, answer, hu, hd, he, ha, rfl⟩ :=
    hc.of_yields (e.yields_lookahead negated ctx s)
  refine ⟨inner, he, fun ip S S' t t' hr => ?_⟩
  have hx := A.exec_lookahead he.shape ha (hu.has hmakes.consts) (hd.has hmakes.consts) ip S
  rw [hx] at hr
  obtain ⟨v, u, u', hp, hv, hS, hpos⟩ := Activation.lookahead_eq_ok hr
  refine ⟨fun hH hsteady => ?_, v, u, u', hp, hv, hS, hpos⟩
  cases hf : v.isFailed with
  | false =>
    rw [hf] at hpos
    exact hpos
  | true =>
    -- the operand has gone back itself
    rw [hf] at hpos
    obtain rfl := Value.eq_failed hf
    have hsound := hmakes.expr_sound input depth name e _ _ inner (.pos t.pos :: S) [] rfl he.shape
      .nil
    have hinner : A.exec 0 inner (.pos t.pos :: S) u = .ok (.failed :: .pos t.pos :: S) u' := by
      rw [Activation.exec_expr he.shape]
      exact bind_eq_ok.mpr ⟨_, _, hv, rfl⟩
    have hback := hsound.pos_eq (restores_expr hH m.fuel depth hsteady []) hinner
    rw [hp] at hback
    exact hpos.trans hback

/-- A letter is matched, and the place is gone back to. -/
theorem generate_lookahead_letter :
    let g : Grammar := ⟨[⟨"letter", .followedBy .any⟩]⟩
    ∃ (m : Machine Unit) (c : Code) (t : State Unit), g.generate true = .ok m.program ∧
      (Expr.followedBy .any).HasCode m.program.consts g.ruleIndex? .rule [] c ∧
      m.host.NeverFails ∧ g.Steady .any ∧
      (m.activation "a" 0 "letter").exec 0 c [] (.start ()) = .ok [.undefined] t ∧ t.pos = 0 := by
  intro g
  let c : Code := [1, 26, 15, 2, 2, 19, 1, 21, 2, 27, 11, 4, 4, 2, 3, 0, 0, 2, 2, 0, 1]
  let consts : List Constant := [.undefined, .failed, .expectation .anyChar]
  let m : Machine Unit := ⟨⟨[⟨"letter", c⟩], consts⟩, fun _ _ _ h => (.ok .null, h), {}, 0⟩
  have hg : g.generate true = .ok m.program := by decide +kernel
  have hc : ((Expr.any).lookahead false).HasCode consts g.ruleIndex? .rule [] c :=
    ⟨{}, ⟨consts⟩, rfl, List.prefix_rfl⟩
  have hH : m.host.NeverFails := by
    rintro f x args h ⟨⟩
  have hsteady : g.Steady .any := by
    intro d n max delimiter h
    cases h with
    | part _ hd => cases hd
  have hb : Block.read 0 c = .instr 0 .pushPos (.instr 1 .silenceOn (.branch 2 .any 2 2
      (.instr 5 (.acceptN 1) .done) (.instr 7 (.fail 2) .done) (.instr 9 .silenceOff
        (.branch 10 .isMatched 4 4
          (.instr 13 .pop (.instr 14 .popPos (.instr 15 (.push 0) .done)))
          (.instr 17 .pop (.instr 18 .pop (.instr 19 (.push 1) .done))) .done)))) := by
    decide +kernel
  have hr : ∃ t, (m.activation "a" 0 "letter").exec 0 c [] (.start ()) = .ok [.undefined] t := by
    rw [Activation.exec, hb]
    exact ⟨_, rfl⟩
  obtain ⟨t, hr⟩ := hr
  obtain ⟨inner, -, hlaw⟩ := generate_lookahead hg hc "a" 0 "letter"
  exact ⟨m, c, t, hg, hc, hH, hsteady, hr, (hlaw _ _ _ _ _ hr).1 hH hsteady⟩

/-- Lookahead consumes: where two letters may not follow and there is one, the predicate holds behind
it. -/
theorem lookahead_moves_letter :
    let e : Expr := .notFollowedBy (.bounded .any (some 2) none none)
    let g : Grammar := ⟨[⟨"letters", e⟩]⟩
    ∃ (m : Machine Unit) (c : Code) (t : State Unit), g.generate true = .ok m.program ∧
      m.host.NeverFails ∧ e.HasCode m.program.consts g.ruleIndex? .rule [] c ∧
      (m.activation "a" 0 "letters").exec 0 c [] (.start ()) = .ok [.undefined] t ∧ t.pos ≠ 0 := by
  intro e g
  let c : Code := [1, 26, 0, 2, 15, 2, 2, 19, 1, 21, 3, 14, 15, 6, 0, 5, 13, 2, 7, 0, 1, 15, 2, 2,
    19, 1, 21, 3, 2, 0, 4, 12, 3, 0, 2, 0, 1, 27, 10, 4, 4, 2, 2, 0, 0, 2, 3, 0, 1]
  let consts : List Constant := [.undefined, .failed, .emptyArray, .expectation .anyChar,
    .bound (some 2), .bound none]
  let m : Machine Unit := ⟨⟨[⟨"letters", c⟩], consts⟩, fun _ _ _ h => (.ok .null, h), {}, 1⟩
  have hg : g.generate true = .ok m.program := by decide +kernel
  have hc : e.HasCode consts g.ruleIndex? .rule [] c := ⟨{}, ⟨consts⟩, rfl, List.prefix_rfl⟩
  have hH : m.host.NeverFails := by
    rintro f x args h ⟨⟩
  have hb : Block.read 0 c = .instr 0 .pushPos (.instr 1 .silenceOn (.instr 2 (.push 2)
      (.branch 4 .any 2 2 (.instr 7 (.acceptN 1) .done) (.instr 9 (.fail 3) .done)
        (.loop 11 15 (.instr 13 .append (.instr 14 (.push 5) (.branch 16 .isFull 2 7
            (.instr 19 (.push 1) .done) (.branch 21 .any 2 2 (.instr 24 (.acceptN 1) .done)
              (.instr 26 (.fail 3) .done) .done) .done)))
          (.instr 28 .pop (.instr 29 (.push 4) (.branch 31 .isShort 3 0
            (.instr 34 .pop (.instr 35 (.push 1) .done)) .done (.instr 37 .silenceOff
              (.branch 38 .isFailed 4 4
                (.instr 41 .pop (.instr 42 .pop (.instr 43 (.push 0) .done)))
                (.instr 45 .pop (.instr 46 .popPos (.instr 47 (.push 1) .done))) .done))))))))) := by
    decide +kernel
  have hr : ∃ t, (m.activation "a" 0 "letters").exec 0 c [] (.start ()) = .ok [.undefined] t ∧
      t.pos = 1 := by
    rw [Activation.exec, hb]
    exact ⟨_, rfl, rfl⟩
  obtain ⟨t, hr, hpos⟩ := hr
  refine ⟨m, c, t, hg, hH, hc, hr, ?_⟩
  rw [hpos]
  exact Nat.one_ne_zero

end Grammar
end PegMachine
