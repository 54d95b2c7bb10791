import PegMachine.Proofs.Machine.Follows
import PegMachine.Proofs.Machine.Frame
import PegMachine.Proofs.Machine.Lockstep

/-! Runs that are cut off. A limit on instructions stops a run in the state in which the next one
starts, so that with all limits together each instruction of a run can be met. -/
namespace PegMachine

variable {σ α β : Type} {k : ℕ} {S : Stack}

open Run

namespace Run

/-- The state at the end of a run, however it ends. -/
def last : EStateM.Result Stop (State σ) α → State σ
  | .ok _ t | .error _ t => t

/-- A run and the same run if it is cut off after `k` instructions. Nothing is said of a run that is
stopped before. -/
inductive CutOff (k : ℕ) : EStateM.Result Stop (State σ) α → EStateM.Result Stop (State σ) α → Prop
  | ok {a : α} {t : State σ} (h : t.steps ≤ k) : CutOff k (.ok a t) (.ok a t)
  | stopped {x : Stop} {t : State σ} {r : EStateM.Result Stop (State σ) α} (h : t.steps ≤ k) :
      CutOff k (.error x t) r
  | cut {r : EStateM.Result Stop (State σ) α} {t : State σ} (h : k < (last r).steps)
      (ht : t.steps = k + 1) : CutOff k r (.error (.fault (.stepLimit k)) t)

/-- `f'` is `f`, cut off after `k` instructions. -/
structure Cuts (k : ℕ) (f f' : Run σ α) : Prop where
  counts (s : State σ) : s.steps ≤ (last (f s)).steps
  cutOff {s : State σ} (hs : s.steps ≤ k) : CutOff k (f s) (f' s)

namespace Cuts

variable {f f' : Run σ α} {g g' : α → Run σ β}

theorem of_keeps (hf : Keeps State.steps f) : Cuts k f f := by
  constructor
  case counts =>
    intro s
    cases h : f s with
    | ok a t => exact (hf.ok h).ge
    | error x t => exact (hf.error h).1.ge
  case cutOff =>
    intro s hs
    cases h : f s with
    | ok a t => exact .ok ((hf.ok h).trans_le hs)
    | error x t => exact .stopped ((hf.error h).1.trans_le hs)

theorem pure (a : α) : Cuts (σ := σ) k (pure a) (pure a) := .of_keeps (.pure a)

theorem stop (x : Stop) : Cuts (α := α) (σ := σ) k (throw x) (throw x) := by
  constructor
  case counts => exact fun s => le_rfl
  case cutOff => exact fun hs => .stopped hs

theorem bind (hf : Cuts k f f') (hg : ∀ a, Cuts k (g a) (g' a)) :
    Cuts k (f >>= g) (f' >>= g') := by
  have hcounts s : (last (f s)).steps ≤ (last ((f >>= g) s)).steps := by
    change _ ≤ (last (EStateM.bind f g s)).steps
    unfold EStateM.bind
    cases f s with
    | ok a t => exact (hg a).counts t
    | error x t => exact le_rfl
  constructor
  case counts => exact fun s => (hf.counts s).trans (hcounts s)
  case cutOff =>
    intro s hs
    have hcut := hf.cutOff hs
    have hlast := hcounts s
    change CutOff k (EStateM.bind f g s) (EStateM.bind f' g' s)
    change _ ≤ (last (EStateM.bind f g s)).steps at hlast
    unfold EStateM.bind at hlast ⊢
    generalize f s = r at hcut hlast ⊢
    generalize f' s = r' at hcut ⊢
    cases hcut with
    | ok h => exact (hg _).cutOff h
    | stopped h => exact .stopped h
    | cut h ht => exact .cut (h.trans_le hlast) ht

theorem tick (limits : Limits) (S : Stack) :
    Cuts (σ := σ) k (tick limits S) (tick { limits with steps := some k } S) := by
  have hlast (s : State σ) : (last (Run.tick limits S s)).steps = s.steps + 1 := by
    rcases tick_cases limits S s with h | ⟨x, -, h⟩
    · rw [h]
      rfl
    · rw [h]
      rfl
  constructor
  case counts =>
    intro s
    rw [hlast]
    exact Nat.le_succ _
  case cutOff =>
    intro s hs
    rw [tick_some]
    split
    · next hlt => exact .cut (hlt.trans_eq (hlast s).symm) (by simp; omega)
    · next hle =>
      rcases tick_cases limits S s with h | ⟨x, -, h⟩
      · rw [h, if_neg (not_lt.mpr (tick_eq_ok_iff.mp h).2.2)]
        exact .ok (not_lt.mp hle)
      · rw [h]
        exact .stopped (not_lt.mp hle)

end Cuts
end Run

/-- The limit on instructions alone is another one. -/
def Env.cut (env : Env σ) (k : ℕ) : Env σ := { env with limits := { env.limits with steps := some k } }

def Machine.cut (m : Machine σ) (k : ℕ) : Machine σ :=
  { m with limits := { m.limits with steps := some k } }

theorem Run.Cuts.lockstep (env : Env σ) : Lockstep env (env.cut k) fun _ => Cuts k where
  pure := Cuts.pure
  stop := Cuts.stop
  bind := Cuts.bind
  tick := Cuts.tick env.limits
  instr {i} hi _ _ _ := by
    cases i with
    | rule j => exact absurd rfl (hi j)
    | _ => exact of_keeps (Instr.keeps_steps hi)
  test t _ := by
    have hsame : t.ask (env.cut k) = t.ask env := by cases t <;> rfl
    rw [hsame]
    exact (of_keeps .get).bind fun _ => of_keeps (.ofExcept t.operation_holds)
  call _ _ := of_keeps (keeps_callHost.map Prod.snd)

theorem Run.cuts_rule (env : Env σ) (rules : List LoadedRule) (fuel depth i : ℕ) :
    Cuts k (Run.rule env rules fuel depth i) (Run.rule (env.cut k) rules fuel depth i) := by
  induction depth generalizing i with
  | zero =>
    rw [Run.rule, Run.rule]
    cases rules[i]? with
    | none => exact .stop _
    | some r => exact .stop _
  | succ depth ih =>
    rw [Run.rule, Run.rule]
    cases rules[i]? with
    | none => exact .stop _
    | some r =>
      refine ((Cuts.lockstep env).block ih r.body []).bind fun S => ?_
      exact .of_keeps (.ofExcept Stack.operation_top)

/-- The state in which a run comes to the instruction before which it has counted `k` others: there it
is stopped, if it may count no more. -/
def Machine.Meets (m : Machine σ) (i : ℕ) (input : String) (s : State σ) (k : ℕ) (t : State σ) :
    Prop :=
  (m.cut k).run i input s = .error (.fault (.stepLimit k)) t

/-- A run comes to every instruction that it counts. -/
theorem Machine.exists_meets (m : Machine σ) (i : ℕ) (input : String) (s : State σ)
    (hk : k < (last (m.run i input s)).steps) : ∃ t, m.Meets i input s k t ∧ t.steps = k + 1 := by
  have hrule := cuts_rule (k := k) (m.env input) m.program.load m.fuel m.limits.callDepth i
  have hrun : Cuts k (Run.rule (m.env input) m.program.load m.fuel m.limits.callDepth i >>=
      fun v => get >>= fun u => pure (⟨v, u.pos, u.report⟩ : Outcome)) _ :=
    hrule.bind fun v => (Cuts.of_keeps .get).bind fun u => .pure _
  have hcut := hrun.cutOff (s := .start s.host) (Nat.zero_le k)
  change CutOff k (m.run i input s) ((m.cut k).run i input s) at hcut
  unfold Meets
  generalize m.run i input s = r at hk hcut
  generalize (m.cut k).run i input s = r' at hcut ⊢
  cases hcut with
  | ok h => exact absurd hk (not_lt.mpr h)
  | stopped h => exact absurd hk (not_lt.mpr h)
  | cut _ ht => exact ⟨_, rfl, ht⟩

end PegMachine
