import PegMachine.Proofs.Compile.Slots
import PegMachine.Proofs.Machine.Slots
import PegMachine.Proofs.Semantics.Program

/-! Runs of compiled grammars. Their code is typed: each expression and each rule leaves a result, at a
place that is on from where it starts. -/
namespace PegMachine

variable {σ : Type} {V : Value → Prop} {o : ℕ} {J : Report → σ → Prop} {D : Demand}
  {rules : String → Option ℕ} {e : Expr} {ctx : Context} {s : Scope} {c : Code} {t : State σ}

open Run

/-- The code of an expression leaves the values on the stack as they are and puts a result on them. -/
theorem Expr.Shape.upholds {A : Activation σ} (hc : e.Shape A.env.program.consts rules ctx s c)
    (hs : D.scope ctx.sp [] s) (hK : A.env.program.consts.length ≤ UInt32.size)
    (hu : A.env.Trusts D.calls o V J) (hr : ∀ j, UpholdsRule A.env o V J (A.rule j))
    (ht : t.Sound A.env.input o J) (ip : ℕ) (S : Stack) :
    Upholds (State.Sound A.env.input o J) (fun S' t' => ∃ v, S' = v :: S ∧ (v = .failed ∨ V v) ∧
      A.env.input.Onward t.pos t'.pos) (A.exec ip c S t) := by
  have hrun : A.Delivers o t.pos V J (A.exec ip c) [] [.result] :=
    (hc.typed hs).delivers hK hu hr ht.1 ip
  refine (hrun [] S t (.nil (.refl _ _)) ht).imp (fun _ h => h) ?_
  rintro S' t' - ⟨U, rfl, hU⟩
  obtain ⟨v, U, rfl, hv, hU⟩ := hU.held (by simp)
  cases hU with
  | nil hp => exact ⟨v, rfl, hv, hp⟩

theorem Grammar.Makes.upholds_rule {g : Grammar} {m : Machine σ} (hg : g.Makes m.program)
    (input : String) (hu : (m.env input).Trusts D.calls o V J) (depth i : ℕ) :
    UpholdsRule (m.env input) o V J (Run.rule (m.env input) m.program.load m.fuel depth i) := by
  induction depth generalizing i with
  | zero =>
    intro s hs
    rw [Run.rule]
    cases m.program.load[i]? with
    | none => exact hs
    | some r => exact hs
  | succ depth ih =>
    intro s hs
    by_cases hi : i < g.rules.length
    · obtain ⟨r, c, -, hc, -, hshape⟩ := hg.get hi
      rw [Run.rule, hc]
      let A : Activation σ := m.activation input depth c.name
      have hbody := hshape.upholds (A := A) (D.none _ _) hg.consts hu ih hs 0 []
      refine hbody.bind ?_
      rintro - t ht ⟨v, rfl, hv, hp⟩
      exact ⟨ht, hv, hp⟩
    · rw [Run.rule, hg.load_eq_none hi]
      exact hs

/-- A run starts anew, at the start of the input. -/
theorem Machine.upholds_run {m : Machine σ} {input : String} {i : ℕ}
    (hr : UpholdsRule (m.env input) 0 V J
      (Run.rule (m.env input) m.program.load m.fuel m.limits.callDepth i)) (hJ : J {} t.host) :
    Upholds (State.Sound (.ofString input) 0 J)
      (fun o t => (o.value = .failed ∨ V o.value) ∧ o.pos = t.pos ∧ o.report = t.report)
      (m.run i input t) := by
  have hstart : (State.start t.host).Sound (.ofString input) 0 J := ⟨.refl _ _, hJ⟩
  refine Upholds.bind (Q := fun _ u => u = .start t.host) ⟨hstart, rfl⟩ ?_
  rintro - u - rfl
  refine (hr _ hstart).bind ?_
  rintro v u hu ⟨hv, -⟩
  exact ⟨hu, hv, rfl, rfl⟩

end PegMachine
