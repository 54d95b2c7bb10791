import PegMachine.Proofs.Machine.Cut
import PegMachine.Proofs.Semantics.Agreement

/-! Limits only cut a run off. Each of them is asked whether to stop and for nothing else, so that a run
which meets none of them is the same run wherever they allow no less. -/
namespace PegMachine

variable {σ α β : Type} {c d : Limits} {S : Stack}

/-- `c ≤ d`: what is allowed by `c` is allowed by `d`. -/
structure Limits.Le (c d : Limits) : Prop where
  callDepth : c.callDepth ≤ d.callDepth
  steps : ∀ n ∈ d.steps, ∃ k ∈ c.steps, k ≤ n
  stack : c.stack ≤ d.stack

instance : LE Limits := ⟨Limits.Le⟩

/-- The machine with other limits. -/
def Env.under (env : Env σ) (d : Limits) : Env σ := { env with limits := d }

open Run

namespace Run

/-- `f'` ends as `f` does, unless `f` meets a limit. -/
def Eases (f f' : Run σ α) : Prop :=
  ∀ s, f s = f' s ∨ ∃ (x : Stop) (t : State σ), x.AtLimit ∧ f s = .error x t

namespace Eases

theorem refl (f : Run σ α) : Eases f f := fun _ => .inl rfl

theorem limit {x : Stop} (hx : x.AtLimit) (f' : Run σ α) : Eases (throw x) f' :=
  fun s => .inr ⟨x, s, hx, rfl⟩

theorem bind {f f' : Run σ α} {g g' : α → Run σ β} (hf : Eases f f')
    (hg : ∀ a, Eases (g a) (g' a)) : Eases (f >>= g) (f' >>= g') := by
  intro s
  change EStateM.bind f g s = EStateM.bind f' g' s ∨
    ∃ (x : Stop) (t : State σ), x.AtLimit ∧ EStateM.bind f g s = _
  unfold EStateM.bind
  rcases hf s with h | ⟨x, t, hx, h⟩
  · rw [h]
    cases f' s with
    | ok a t => exact hg a t
    | error x t => exact .inl rfl
  · rw [h]
    exact .inr ⟨x, t, hx, rfl⟩

/-- An instruction that may be counted under `c` may be counted under `d`. -/
theorem tick (hcd : c ≤ d) (S : Stack) : Eases (σ := σ) (tick c S) (tick d S) := by
  intro s
  rcases tick_cases c S s with h | ⟨x, hx, h⟩
  · left
    obtain ⟨-, hsteps, hstack⟩ := tick_eq_ok_iff.mp h
    rw [h, eq_comm, tick_eq_ok_iff]
    refine ⟨rfl, fun n hn => ?_, hstack.trans hcd.stack⟩
    obtain ⟨k, hk, hkn⟩ := hcd.steps n hn
    exact (hsteps k hk).trans_le hkn
  · exact .inr ⟨x, _, hx, h⟩

end Eases
end Run

theorem Run.Eases.lockstep {env : Env σ} (hcd : env.limits ≤ d) :
    Lockstep env (env.under d) fun _ => Eases where
  pure a := .refl _
  stop x := .refl _
  bind := Eases.bind
  tick := Eases.tick hcd
  instr {i} hi _ _ S := by
    cases i with
    | rule j => exact absurd rfl (hi j)
    | _ => exact .refl _
  test t S := by
    have hsame : t.ask (env.under d) = t.ask env := by cases t <;> rfl
    rw [hsame]
    exact .refl _
  call _ _ := .refl _

/-- A rule that may go deeper does the same, unless it has gone too deep. -/
theorem Run.eases_rule (env : Env σ) (hcd : env.limits ≤ d) (rules : List LoadedRule) (fuel : ℕ) {m n : ℕ}
    (hmn : m ≤ n) (i : ℕ) :
    Eases (Run.rule env rules fuel m i) (Run.rule (env.under d) rules fuel n i) := by
  induction m generalizing n i with
  | zero =>
    rw [Run.rule, Run.rule]
    cases rules[i]? with
    | none => exact .refl _
    | some r => exact .limit (x := .fault (.callDepth _ _)) trivial _
  | succ m ih =>
    obtain ⟨n, rfl⟩ : ∃ k, n = k + 1 := ⟨n - 1, by omega⟩
    rw [Run.rule, Run.rule]
    cases rules[i]? with
    | none => exact .refl _
    | some r => exact ((Eases.lockstep hcd).block (ih (by omega)) r.body []).bind fun S => .refl _

namespace Program

variable {p : Program} {H : Host σ} {i : ℕ} {input : String} {s : State σ} {r : Ending σ}

theorem Ends.of_le (hcd : c ≤ d) (hr : ¬r.AtLimit) (he : p.Ends H c i input s r) :
    p.Ends H d i input s r := by
  obtain ⟨hfuel, fuel, rfl⟩ := he
  refine ⟨hfuel, fuel, ?_⟩
  let env : Env σ := ⟨p, H, c, .ofString input⟩
  have hrule := eases_rule env hcd p.load fuel hcd.callDepth i (.start s.host)
  rw [Machine.ending_eq] at hr ⊢
  rw [Machine.ending_eq]
  rcases hrule with h | ⟨x, t, hx, h⟩
  · exact congrArg (Ending.of State.toProgress) h.symm
  · change ¬(Ending.of State.toProgress (Run.rule env p.load fuel c.callDepth i _)).AtLimit at hr
    rw [h] at hr
    exact absurd hx hr

/-- Limits that allow more change nothing about a run that has ended without meeting one: it returns the
same value at the same place with the same report, or stops for the same reason, and leaves the host in
the same state. With a host that records its calls, the calls are the same too. -/
theorem ends_of_le (p : Program) (H : Host σ) (i : ℕ) (input : String) (hcd : c ≤ d) :
    (∀ s r, ¬r.AtLimit → p.Ends H c i input s r → p.Ends H d i input s r) ∧
      ∀ s r, ¬r.AtLimit → p.Ends H.recorded c i input s r → p.Ends H.recorded d i input s r :=
  ⟨fun _ _ hr he => he.of_le hcd hr, fun _ _ hr he => he.of_le hcd hr⟩

/-- A run with nothing to spare: two rules inside one another, the 27 instructions that it counts, and
two values. -/
theorem ends_of_le_letters :
    let p : Program := ⟨[⟨"list", [0, 0, 25, 1, 14, 3, 6, 25, 1, 2]⟩,
      ⟨"letter", [1, 15, 2, 2, 19, 1, 21, 1, 11, 7, 0, 22, 1, 24, 2, 1, 1, 0, 5]⟩],
      [.emptyArray, .expectation .anyChar, .function ⟨["x"], "x"⟩]⟩
    let H : Host ℕ := fun _ _ args n => (.ok (args.headD .null), n + 1)
    let c : Limits := ⟨2, some 27, 2⟩
    let r : Ending ℕ := .returns ⟨.array [.string "a", .string "b"], 2, ⟨2, [.anyChar]⟩⟩ 2
    c ≤ {} ∧ ¬r.AtLimit ∧ p.Ends H c 0 "ab" (.start 0) r ∧ p.Ends H {} 0 "ab" (.start 0) r := by
  intro p H c r
  have hc : c ≤ {} := ⟨by decide, by simp, by decide⟩
  have hl : p.load = [⟨"list", .instr 0 (.push 0) (.instr 2 (.rule 1) (.loop 4 3
      (.instr 6 .append (.instr 7 (.rule 1) .done)) (.instr 9 .pop .done)))⟩,
    ⟨"letter", .instr 0 .pushPos (.branch 1 .any 2 2 (.instr 4 (.acceptN 1) .done)
      (.instr 6 (.fail 1) .done) (.branch 8 .isMatched 7 0 (.instr 11 (.reportSaved 1)
        (.call 13 2 1 [0] .done)) .done (.instr 18 .nip .done)))⟩] := by
    decide +kernel
  have hr : (Machine.mk p H c 3).ending 0 "ab" (.start 0) = r := by
    rw [Machine.ending_eq, hl]
    rfl
  have hends : p.Ends H c 0 "ab" (.start 0) r := ⟨by simp [r], 3, hr⟩
  exact ⟨hc, id, hends, (ends_of_le p H 0 "ab" hc).1 _ _ id hends⟩

end Program
end PegMachine
