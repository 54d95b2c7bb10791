import PegMachine.Proofs.Compile.Slots
import PegMachine.Proofs.Machine.Silence
import PegMachine.Proofs.Semantics.Lookahead

/-! Silence. The code of an expression is silenced as often at its end as at its start. Predicates
report nothing, whatever their operands do, and a name reports itself in place of its operand. -/
namespace PegMachine

variable {σ : Type} {K : List Constant} {rules : String → Option ℕ} {e : Expr} {ctx : Context}
  {s : Scope} {c inner : Code} {S : Stack} {v : Value} {t t' : State σ} {negated : Bool} {n : ℕ}

open Run

namespace Activation

variable (A : Activation σ)

/-- Runs the code of an operand in silence. -/
def silently (inner : Code) (S : Stack) : Run σ Value := do
  tick A.env.limits S
  modify fun s => { s with silence := s.silence + 1 }
  let v ← A.value inner S
  tick A.env.limits (v :: S)
  modify fun s => { s with silence := s.silence - 1 }
  pure v

/-- The end of a named expression: where its operand has failed, it is the name that is expected. -/
def announce (name : String) (v : Value) (S : Stack) : Run σ Stack := do
  tick A.env.limits (v :: S)
  if v.isFailed then do
    tick A.env.limits (v :: S)
    tick A.env.limits S
    modify fun s => { s with toProgress := s.toProgress.fail (.other name) }
    pure (.failed :: S)
  else pure (v :: S)

variable {A}

theorem lookahead_eq_silently : A.lookahead negated inner S = (do
    tick A.env.limits S
    let s ← get
    let v ← A.silently inner (.pos s.pos :: S)
    A.answer negated v s.pos S) := by
  simp only [lookahead, silently, bind_assoc, pure_bind]

theorem hushes_silently (hi : ∀ S, Hushes 1 (A.value inner S)) (S : Stack) :
    Hushes n (A.silently inner S) := by
  have hrun : Hushes 1 (do
      let v ← A.value inner S
      tick A.env.limits (v :: S)
      pure v) := (hi S).bind fun v => (Hushes.tick _ _).bind fun _ => .pure v
  have h := hrun.silenced (n := n) fun v => .pure v
  simp only [bind_assoc, pure_bind] at h
  exact (Hushes.tick _ _).bind fun _ => h

theorem silently_eq_ok (h : A.silently inner S t = .ok v t') :
    ∃ u u', u.toProgress = { t.toProgress with silence := t.silence + 1 } ∧
      A.value inner S u = .ok v u' ∧
      t'.toProgress = { u'.toProgress with silence := u'.silence - 1 } := by
  obtain ⟨_, t₁, h₁, h⟩ := bind_eq_ok.mp h
  obtain ⟨_, u, h₂, h⟩ := bind_eq_ok.mp h
  cases h₂
  obtain ⟨w, u', hv, h⟩ := bind_eq_ok.mp h
  obtain ⟨_, t₄, h₄, h⟩ := bind_eq_ok.mp h
  obtain ⟨_, t₅, h₅, h⟩ := bind_eq_ok.mp h
  cases h₅
  obtain ⟨rfl, rfl⟩ := pure_eq_ok.mp h
  obtain rfl := tick_eq_ok h₁
  obtain rfl := tick_eq_ok h₄
  exact ⟨_, u', rfl, hv, rfl⟩

theorem hushes_answer {p : ℕ} : Hushes n (A.answer negated v p S) := by
  refine (Hushes.tick _ _).bind fun _ => (Hushes.tick _ _).bind fun _ => ?_
  refine (Hushes.tick _ _).bind fun _ => Hushes.bind ?_ fun _ => ?_
  · split
    · exact .pure _
    · exact .update (fun _ => rfl) fun _ _ => rfl
  · exact (Hushes.tick _ _).bind fun _ => .pure _

theorem hushes_lookahead (hi : ∀ S, Hushes 1 (A.value inner S)) :
    Hushes n (A.lookahead negated inner S) := by
  rw [lookahead_eq_silently]
  refine (Hushes.tick _ _).bind fun _ => Hushes.get.bind fun s => ?_
  exact (hushes_silently hi _).bind fun v => hushes_answer

/-- The name is the only failure that a named expression records. -/
theorem announce_eq_ok {name : String} {S' : Stack} (h : A.announce name v S t = .ok S' t') :
    S' = v :: S ∧
      t'.toProgress = if v.isFailed then t.toProgress.fail (.other name) else t.toProgress := by
  obtain ⟨_, t₁, h₁, h⟩ := bind_eq_ok.mp h
  obtain rfl := tick_eq_ok h₁
  cases hf : v.isFailed with
  | true =>
    rw [hf] at h
    obtain ⟨_, t₂, h₂, h⟩ := bind_eq_ok.mp h
    obtain ⟨_, t₃, h₃, h⟩ := bind_eq_ok.mp h
    obtain ⟨_, t₄, h₄, h⟩ := bind_eq_ok.mp h
    cases h₄
    obtain ⟨rfl, rfl⟩ := pure_eq_ok.mp h
    obtain rfl := tick_eq_ok h₂
    obtain rfl := tick_eq_ok h₃
    obtain rfl := Value.eq_failed hf
    exact ⟨rfl, rfl⟩
  | false =>
    rw [hf] at h
    obtain ⟨rfl, rfl⟩ := pure_eq_ok.mp h
    exact ⟨rfl, rfl⟩

theorem announce_eq_error {name : String} {x : Stop} (h : A.announce name v S t = .error x t') :
    t'.report = t.report := by
  have htick {T : Stack} {t t' : State σ} (h : tick A.env.limits T t = .error x t') :
      t'.report = t.report := (Hushes.tick (n := 0) _ _).error h (Nat.zero_le _)
  rcases bind_eq_error.mp h with h | ⟨_, t₁, h₁, h⟩
  · exact htick h
  obtain rfl := tick_eq_ok h₁
  split at h
  · rcases bind_eq_error.mp h with h | ⟨_, t₂, h₂, h⟩
    · exact (htick h).trans rfl
    obtain rfl := tick_eq_ok h₂
    rcases bind_eq_error.mp h with h | ⟨_, t₃, h₃, h⟩
    · exact (htick h).trans rfl
    -- what is recorded is recorded at the very end
    rcases bind_eq_error.mp h with h | ⟨_, t₄, h₄, h⟩
    · cases h
    · cases h
  · cases h

/-- The law of silence. Code of an expression that runs to its end is silenced as often as before.
A predicate leaves the report as it is, whether it ends or is stopped. A named expression runs its
operand in silence, and where that fails and nothing silences the name, it is reported once, at the
place where the operand has come to its end. -/
structure KeepsSilence (A : Activation σ) (g : Grammar) : Prop where
  balanced {e : Expr} {ctx : Context} {s : Scope} {c : Code}
    (hc : e.HasCode A.env.program.consts g.ruleIndex? ctx s c) {ip : ℕ} {S S' : Stack}
    {t t' : State σ} (h : A.exec ip c S t = .ok S' t') : t'.silence = t.silence
  lookahead (negated : Bool) {e : Expr} {ctx : Context} {s : Scope} {c : Code}
    (hc : (e.lookahead negated).HasCode A.env.program.consts g.ruleIndex? ctx s c) (ip : ℕ)
    (S : Stack) (t : State σ) :
    (∀ S' t', A.exec ip c S t = .ok S' t' → t'.report = t.report) ∧
      ∀ x t', A.exec ip c S t = .error x t' → t'.report = t.report
  named {name : String} {e : Expr} {ctx : Context} {s : Scope} {c : Code}
    (hc : (Expr.named name e).HasCode A.env.program.consts g.ruleIndex? ctx s c) :
    ∃ inner, e.HasCode A.env.program.consts g.ruleIndex? ctx s inner ∧ ∀ ip S t,
      (∀ S' t', A.exec ip c S t = .ok S' t' → ∃ v u u',
        u.toProgress = { t.toProgress with silence := t.silence + 1 } ∧
        A.value inner S u = .ok v u' ∧ u'.report = t.report ∧ S' = v :: S ∧
        t'.toProgress = { u'.toProgress with
          silence := t.silence
          report := if v.isFailed ∧ t.silence = 0 then t.report.record u'.pos (.other name)
            else t.report }) ∧
      ∀ x t', A.exec ip c S t = .error x t' → t'.report = t.report

end Activation

theorem Expr.Shape.hushes {A : Activation σ} (hc : e.Shape K rules ctx s c)
    (hr : ∀ j, Hushes 1 (A.rule j)) (ip : ℕ) (S : Stack) : Hushes 1 (A.exec ip c S) :=
  (hc.typed (D := .nothing) (Γ := []) trivial).hushes hr ip S

theorem Activation.keepsSilence {A : Activation σ} (g : Grammar)
    (hK : A.env.program.consts.length ≤ UInt32.size) (hr : ∀ j, Hushes 1 (A.rule j)) :
    A.KeepsSilence g := by
  have hvalue {e : Expr} {ctx : Context} {s : Scope} {inner : Code}
      (he : e.HasCode A.env.program.consts g.ruleIndex? ctx s inner) (S : Stack) :
      Hushes 1 (A.value inner S) :=
    (he.shape.hushes hr 0 S).bind fun _ => .ofExcept
  constructor
  case balanced =>
    intro e ctx s c hc ip S S' t t' h
    exact (hc.shape.hushes hr ip S).balanced h
  case lookahead =>
    intro negated e ctx s c hc ip S t
    obtain ⟨undefined, failed, inner, answer, hu, hd, he, ha, rfl⟩ :=
      hc.of_yields (e.yields_lookahead negated ctx s)
    rw [exec_lookahead he.shape ha (hu.has hK) (hd.has hK) ip S]
    have hrun : Hushes 0 (A.lookahead negated inner S) := hushes_lookahead (hvalue he)
    exact ⟨fun S' t' h => hrun.ok h (Nat.zero_le _), fun x t' h => hrun.error h (Nat.zero_le _)⟩
  case named =>
    intro name e ctx s c hc
    obtain ⟨inner, he, hx⟩ := (A.bindsLabels g hK).named hc
    refine ⟨inner, he, fun ip S t => ?_⟩
    have hx : A.exec ip c S = A.silently inner S >>= fun v => A.announce name v S := by
      rw [hx]
      simp only [silently, announce, bind_assoc, pure_bind]
    have hsilent : Hushes 0 (A.silently inner S) := hushes_silently (hvalue he) S
    rw [hx]
    constructor
    · intro S' t' h
      obtain ⟨v, w, hw, h⟩ := bind_eq_ok.mp h
      obtain ⟨u, u', hp, hv, hend⟩ := silently_eq_ok hw
      obtain ⟨rfl, hend'⟩ := announce_eq_ok h
      have hsilence : w.silence = t.silence := hsilent.balanced hw
      have hreport : w.report = t.report := hsilent.ok hw (Nat.zero_le _)
      have hend₁ : w.toProgress =
          { u'.toProgress with silence := t.silence, report := t.report } := by
        rw [← hsilence, ← hreport, hend]
      have hreport' : u'.report = t.report := by
        rw [← hreport, hend]
      refine ⟨v, u, u', hp, hv, hreport', rfl, ?_⟩
      rw [hend', hend₁]
      cases v.isFailed with
      | false => simp
      | true => by_cases hz : t.silence = 0 <;> simp [Progress.fail, Progress.expect, hz]
    · intro x t' h
      rcases bind_eq_error.mp h with h | ⟨v, w, hw, h⟩
      · exact hsilent.error h (Nat.zero_le _)
      · exact (announce_eq_error h).trans (hsilent.ok hw (Nat.zero_le _))

namespace Grammar

variable {g : Grammar} {m : Machine σ} {verify : Bool}

theorem Makes.hushes_rule (hg : g.Makes m.program) (input : String) (depth i : ℕ) :
    Hushes 1 (Run.rule (m.env input) m.program.load m.fuel depth i) := by
  induction depth generalizing i with
  | zero =>
    rw [Run.rule]
    split <;> exact .stop _
  | succ depth ih =>
    by_cases hi : i < g.rules.length
    · obtain ⟨r, c, -, hc, hshape⟩ := hg.get hi
      rw [Run.rule, hc]
      have hbody := hshape.2.hushes (A := m.activation input depth c.name) ih 0 []
      exact hbody.bind fun _ => .ofExcept
    · rw [Run.rule, hg.load_eq_none hi]
      exact .stop _

/-- In a run of a compiled grammar each silencing is undone. Rules that are called, and all
expressions, end with as many silencings as they have started with; predicates report nothing, and
named expressions at most their names. -/
theorem generate_keepsSilence (hg : g.generate verify = .ok m.program) (input : String)
    (depth : ℕ) :
    (∀ i s v t, Run.rule (m.env input) m.program.load m.fuel depth i s = .ok v t →
      t.silence = s.silence) ∧
    ∀ name, (m.activation input depth name).KeepsSilence g := by
  have hmakes := generate_makes hg
  have hrule := hmakes.hushes_rule input depth
  constructor
  · intro i s v t h
    exact (hrule i).balanced h
  · intro name
    exact Activation.keepsSilence g hmakes.consts hrule

/-- No letter follows. What is reported is the word and not the letter. -/
theorem generate_keepsSilence_word :
    let e : Expr := .named "word" (.followedBy (.rule "letter"))
    let g : Grammar := ⟨[⟨"word", e⟩, ⟨"letter", .any⟩]⟩
    ∃ (m : Machine Unit) (c : Code) (t : State Unit), g.generate true = .ok m.program ∧
      e.HasCode m.program.consts g.ruleIndex? .rule [] c ∧
      (m.activation "" 1 "word").exec 0 c [] (.start ()) = .ok [.failed] t ∧ t.silence = 0 ∧
      t.report = ⟨0, [.other "word"]⟩ := by
  intro e g
  let c : Code := [26, 1, 26, 25, 1, 27, 11, 4, 4, 2, 3, 0, 1, 2, 2, 0, 2, 27, 10, 3, 0, 2, 21, 0]
  let consts : List Constant :=
    [.expectation (.other "word"), .undefined, .failed, .expectation .anyChar]
  let m : Machine Unit :=
    ⟨⟨[⟨"word", c⟩, ⟨"letter", [15, 2, 2, 19, 1, 21, 3]⟩], consts⟩, .none, {}, 0⟩
  have hg : g.generate true = .ok m.program := by decide +kernel
  have hc : e.HasCode consts g.ruleIndex? .rule [] c := ⟨{}, ⟨consts.take 3⟩, rfl, by simp [consts]⟩
  have hb : Block.read 0 c = .instr 0 .silenceOn (.instr 1 .pushPos (.instr 2 .silenceOn
      (.instr 3 (.rule 1) (.instr 5 .silenceOff (.branch 6 .isMatched 4 4
        (.instr 9 .pop (.instr 10 .popPos (.instr 11 (.push 1) .done)))
        (.instr 13 .pop (.instr 14 .pop (.instr 15 (.push 2) .done)))
        (.instr 17 .silenceOff (.branch 18 .isFailed 3 0
          (.instr 21 .pop (.instr 22 (.fail 0) .done)) .done .done))))))) := by
    decide +kernel
  have hl : m.program.load = [⟨"word", Block.read 0 c⟩, ⟨"letter", .branch 0 .any 2 2
      (.instr 3 (.acceptN 1) .done) (.instr 5 (.fail 3) .done) .done⟩] := by
    decide +kernel
  have hr : ∃ t, (m.activation "" 1 "word").exec 0 c [] (.start ()) = .ok [.failed] t ∧
      t.pos = 0 := by
    rw [Activation.exec, Machine.activation, hl, hb]
    exact ⟨_, rfl, rfl⟩
  obtain ⟨t, hr, hpos⟩ := hr
  have hlaw := (generate_keepsSilence hg "" 1).2 "word"
  obtain ⟨inner, -, hnamed⟩ := hlaw.named hc
  obtain ⟨v, u, u', -, -, -, hv, ht⟩ := (hnamed 0 [] (.start ())).1 _ _ hr
  obtain ⟨rfl, -⟩ := List.cons.inj hv
  have hplace : u'.pos = 0 := (congrArg Progress.pos ht).symm.trans hpos
  refine ⟨m, c, t, hg, hc, hr, hlaw.balanced hc hr, ?_⟩
  rw [congrArg Progress.report ht, hplace]
  rfl

end Grammar
end PegMachine
