import PegMachine.Proofs.Machine.Avoid
import PegMachine.Proofs.Machine.Frame
import PegMachine.Proofs.Semantics.Ending

/-! A run with room on its stacks and no limit on its instructions. A word of code adds no more than
one value to the stack of its rule, so a stack with room for as many values as the code has words is
never too small: only the depth of rules inside one another is left to stop the run. -/
namespace PegMachine

variable {σ α γ : Type} {n h k M : ℕ} {ok : ℕ → ℕ → Prop} {c : Code} {S : Stack}

/-- The run has met a limit that is not the one on the depth of rules, `n`. -/
def Stop.Shallow (n : ℕ) (x : Stop) : Prop :=
  x.AtLimit ∧ ∀ name, x ≠ .fault (.callDepth n name)

theorem Stop.Local.not_shallow {x : Stop} (hx : x.Local) : ¬x.Shallow n := by
  rintro ⟨hl, -⟩
  cases x with
  | fault f => cases f <;> first | exact hl | exact hx
  | host f => exact hl
  | fuel => exact hl

open Run

namespace Run

theorem Avoids.of_keeps {P : State σ → γ} {f : Run σ α} (hf : Keeps P f) :
    Avoids (Stop.Shallow n) f :=
  fun _ _ _ ht => (hf.error ht).2.not_shallow

theorem Avoids.ofExcept {x : Except Fault α} (hx : Operation x) :
    Avoids (σ := σ) (Stop.Shallow n) (ofExcept x) :=
  .of_keeps (P := id) (.ofExcept hx)

theorem Avoids.tick {limits : Limits} (hn : limits.steps = none) (hS : S.length ≤ limits.stack) :
    Avoids (σ := σ) (Stop.Shallow n) (tick limits S) := by
  obtain ⟨depth, steps, stack⟩ := limits
  obtain rfl : steps = none := hn
  intro s x t ht
  simp only [Run.tick, if_neg (not_lt.mpr hS)] at ht
  cases ht

end Run

theorem Instr.avoids_shallow {env : Env σ} {rule : ℕ → Run σ Value}
    (hr : ∀ j, Avoids (Stop.Shallow n) (rule j)) (i : Instr) (S : Stack) :
    Avoids (Stop.Shallow n) (i.run env rule S) := by
  cases i with
  | rule j => exact (hr j.toNat).bind fun _ _ _ _ => .pure _
  | _ => exact .of_keeps (keeps_steps (by simp))

/-- In balanced code with room on its stack only the rules that it runs meet a limit. -/
theorem Balanced.avoids_shallow {A : Activation σ} {ip : ℕ} (hc : Balanced ok M c h k)
    (hsteps : A.env.limits.steps = none) (hroom : h + c.length ≤ A.env.limits.stack)
    (hr : ∀ j, Avoids (Stop.Shallow n) (A.rule j)) (hS : S.length = h) :
    Avoids (Stop.Shallow n) (A.exec ip c S) := by
  have hA : A.StepsAvoid (Stop.Shallow n) ok A.env.limits.stack := by
    constructor
    case fuel => exact fun hx => hx.1
    case tick => exact .tick hsteps
    case instr => exact fun _ => Instr.avoids_shallow hr _ _
    case test => exact fun _ _ => .ofExcept (Test.operation_holds _)
    case slots => exact fun _ => .ofExcept Stack.operation_peekAll
    case call => exact fun _ _ => .of_keeps keeps_callHost
  exact hc.avoids hA hroom hS

/-- The rules of a program meet no limit but that on their depth, if their code leads from an empty
stack to one value and there is room for it. -/
theorem Run.rule_avoids_shallow (env : Env σ) (fuel : ℕ) (hsteps : env.limits.steps = none)
    (hroom : ∀ r ∈ env.program.rules, r.code.length ≤ env.limits.stack)
    (hbal : ∀ r ∈ env.program.rules, ∃ ok M, Balanced ok M r.code 0 1) (depth i : ℕ) :
    Avoids (Stop.Shallow env.limits.callDepth) (Run.rule env env.program.load fuel depth i) := by
  have hmissing : ¬(Stop.fault (.ruleIndex i)).Shallow env.limits.callDepth := fun hx => hx.1
  induction depth generalizing i with
  | zero =>
    rw [Run.rule]
    cases env.program.load[i]? with
    | none => exact .stop hmissing
    | some r => exact .stop fun hx => hx.2 r.name rfl
  | succ depth ih =>
    rw [Run.rule]
    cases hr : env.program.load[i]? with
    | none => exact .stop hmissing
    | some r =>
      rw [Program.load, List.getElem?_map] at hr
      obtain ⟨c, hc, rfl⟩ := Option.map_eq_some_iff.mp hr
      have hmem := List.mem_of_getElem? hc
      obtain ⟨ok, M, hb⟩ := hbal c hmem
      have hlen : 0 + c.code.length ≤ env.limits.stack := (Nat.zero_add _).trans_le (hroom c hmem)
      let A : Activation σ := ⟨env, fuel, Run.rule env env.program.load fuel depth, c.name⟩
      have hrules := fun j => ih j fun hx => hx.1
      have hcode : Avoids (Stop.Shallow env.limits.callDepth) (A.exec 0 c.code []) :=
        hb.avoids_shallow hsteps hlen hrules rfl
      exact hcode.bind fun _ _ _ _ => .ofExcept Stack.operation_top

/-- Of the limits on such a run only that on the depth of rules is met. -/
theorem Machine.atLimit_ending {m : Machine σ} (hsteps : m.limits.steps = none)
    (hroom : ∀ r ∈ m.program.rules, r.code.length ≤ m.limits.stack)
    (hbal : ∀ r ∈ m.program.rules, ∃ ok M, Balanced ok M r.code 0 1) {i : ℕ} {input : String}
    {s : State σ} (h : (m.ending i input s).AtLimit) :
    ∃ name t, m.ending i input s = .stops (.fault (.callDepth m.limits.callDepth name)) t := by
  have havoids := rule_avoids_shallow (m.env input) m.fuel hsteps hroom hbal m.limits.callDepth i
  rw [Machine.ending_eq] at h ⊢
  cases hr : Run.rule (m.env input) m.program.load m.fuel m.limits.callDepth i (.start s.host) with
  | ok v t =>
    rw [hr] at h
    exact h.elim
  | error x t =>
    rw [hr] at h
    by_contra hnone
    apply havoids _ x t hr
    refine ⟨h, fun name hx => hnone ⟨name, t.host, ?_⟩⟩
    rw [hx]
    rfl

end PegMachine
