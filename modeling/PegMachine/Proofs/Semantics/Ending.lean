import PegMachine.Proofs.Machine.Follows
import PegMachine.Proofs.Semantics.Fuel

/-! How a run ends, and how a walk ends, when their loops and rules may go on for as long as they
have to. Neither ends in more than one way. -/
namespace PegMachine

variable {σ : Type}

/-- The end of a run. The state of the host outlives a stop. -/
inductive Ending (σ : Type) where
  | returns (o : Outcome) (host : σ)
  | stops (x : Stop) (host : σ)

/-- The run has met one of its limits. -/
def Ending.AtLimit : Ending σ → Prop
  | .returns _ _ => False
  | .stops x _ => x.AtLimit

/-- The end of a part of a run or of a walk, whose states have progress in them. -/
def Ending.of {τ : Type} (progress : τ → Progress σ) : EStateM.Result Stop τ Value → Ending σ
  | .ok v t => .returns ⟨v, (progress t).pos, (progress t).report⟩ (progress t).host
  | .error x t => .stops x (progress t).host

theorem Ending.of_extends {τ : Type} {progress : τ → Progress σ} {w w' : EStateM Stop τ Value}
    (hw : Extends w w') {s : τ} (hr : ∀ h, Ending.of progress (w s) ≠ .stops .fuel h) :
    Ending.of progress (w' s) = Ending.of progress (w s) := by
  rcases hw s with h | ⟨t, h⟩
  · rw [h]
  · rw [h] at hr
    exact absurd rfl (hr _)

namespace Machine

/-- The end of a run of a rule from state `s`. -/
def ending (m : Machine σ) (i : ℕ) (input : String) (s : State σ) : Ending σ :=
  match m.run i input s with
  | .ok o t => .returns o t.host
  | .error x t => .stops x t.host

theorem ending_eq (m : Machine σ) (i : ℕ) (input : String) (s : State σ) :
    m.ending i input s = .of State.toProgress
      (Run.rule (m.env input) m.program.load m.fuel m.limits.callDepth i (.start s.host)) := by
  unfold ending
  have hrun : m.run i input s = EStateM.bind
      (Run.rule (m.env input) m.program.load m.fuel m.limits.callDepth i)
      (fun v t => .ok ⟨v, t.pos, t.report⟩ t) (.start s.host) := rfl
  rw [hrun]
  unfold EStateM.bind
  cases Run.rule (m.env input) m.program.load m.fuel m.limits.callDepth i (.start s.host) with
  | ok v t => rfl
  | error x t => rfl

end Machine

/-- With enough passes for its loops, a run of rule `i` of the program from state `s` ends so. -/
def Program.Ends (p : Program) (H : Host σ) (limits : Limits) (i : ℕ) (input : String)
    (s : State σ) (r : Ending σ) : Prop :=
  (∀ h, r ≠ .stops .fuel h) ∧ ∃ fuel, (Machine.mk p H limits fuel).ending i input s = r

/-- The end of a walk of a rule from the start of the input, with host state `h`. -/
def Grammar.ending (g : Grammar) (H : Host σ) (fuel depth i : ℕ) (input : String) (h : σ) :
    Ending σ :=
  .of id (g.walk ⟨H, .ofString input⟩ fuel depth i (.start h))

/-- With enough passes for its loops and enough depth for its rules, a walk of rule `i` of the
grammar ends so. -/
def Grammar.Ends (g : Grammar) (H : Host σ) (i : ℕ) (input : String) (h : σ) (r : Ending σ) :
    Prop :=
  (∀ h', r ≠ .stops .fuel h') ∧ ∃ fuel depth, g.ending H fuel depth i input h = r

variable {p : Program} {g : Grammar} {H : Host σ} {limits : Limits} {i : ℕ} {input : String}
  {s : State σ} {h : σ} {r r' : Ending σ} {fuel fuel' : ℕ}

theorem Program.ending_fuel (hr : ∀ h, r ≠ .stops .fuel h)
    (he : (Machine.mk p H limits fuel).ending i input s = r) (hf : fuel ≤ fuel') :
    (Machine.mk p H limits fuel').ending i input s = r := by
  subst he
  rw [Machine.ending_eq] at hr ⊢
  rw [Machine.ending_eq]
  exact Ending.of_extends (Run.extends_rule _ _ hf _ _) hr

theorem Program.ends_unique (he : p.Ends H limits i input s r)
    (he' : p.Ends H limits i input s r') : r = r' := by
  obtain ⟨hr, fuel, he⟩ := he
  obtain ⟨hr', fuel', he'⟩ := he'
  rcases le_total fuel fuel' with hf | hf
  · exact (ending_fuel hr he hf).symm.trans he'
  · exact he.symm.trans (ending_fuel hr' he' hf)

theorem Grammar.ending_fuel {d d' : ℕ} (hr : ∀ h, r ≠ .stops .fuel h)
    (he : g.ending H fuel d i input h = r) (hf : fuel ≤ fuel') (hd : d ≤ d') :
    g.ending H fuel' d' i input h = r := by
  subst he
  exact Ending.of_extends (g.extends_walk _ hf hd i) hr

end PegMachine
