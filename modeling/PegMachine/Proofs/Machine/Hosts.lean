import PegMachine.Proofs.Machine.Follows
import PegMachine.Proofs.Machine.Frame
import PegMachine.Proofs.Machine.Lockstep

/-! One machine with two hosts. Where the hosts answer alike, all that is not theirs is the same in both
runs, while a relation between the states of the hosts is kept. -/
namespace PegMachine

variable {σ τ α β : Type} {R E : σ → τ → Prop} {H : Host σ} {G : Host τ}

/-- The same state with another one of the host. -/
def State.withHost (s : State σ) (h : τ) : State τ :=
  ⟨⟨s.pos, s.silence, s.report, h⟩, s.reported, s.steps⟩

/-- The machine with another host. -/
def Env.withHost (env : Env σ) (G : Host τ) : Env τ := ⟨env.program, G, env.limits, env.input⟩

/-- From related states the hosts give the same answer and come to related states. -/
def Host.Mirrors (R : σ → τ → Prop) (H : Host σ) (G : Host τ) : Prop :=
  ∀ f context args s h, R s h →
    (G f context args h).1 = (H f context args s).1 ∧ R (H f context args s).2 (G f context args h).2

namespace Run

/-- The second end is the first one with another state of the host. `E` relates the states where the run
is stopped. -/
def Mirrored (R E : σ → τ → Prop) :
    EStateM.Result Stop (State σ) α → EStateM.Result Stop (State τ) α → Prop
  | .ok a s, r => ∃ h, R s.host h ∧ r = .ok a (s.withHost h)
  | .error x s, r => ∃ h, E s.host h ∧ r = .error x (s.withHost h)

/-- Parts of runs that end in the same way, but for the host. -/
def Parallel (R E : σ → τ → Prop) (f : Run σ α) (f' : Run τ α) : Prop :=
  ∀ s h, R s.host h → Mirrored R E (f s) (f' (s.withHost h))

theorem Mirrored.bind {f : Run σ α} {f' : Run τ α} {g : α → Run σ β} {g' : α → Run τ β} {s : State σ}
    {t : State τ} (hf : Mirrored R E (f s) (f' t)) (hg : ∀ a, Parallel R E (g a) (g' a)) :
    Mirrored R E ((f >>= g) s) ((f' >>= g') t) := by
  change Mirrored R E (EStateM.bind f g s) (EStateM.bind f' g' t)
  unfold EStateM.bind
  cases hx : f s with
  | ok a u =>
    rw [hx] at hf
    obtain ⟨h, hR, hf⟩ := hf
    rw [hf]
    exact hg a u h hR
  | error x u =>
    rw [hx] at hf
    obtain ⟨h, hE, hf⟩ := hf
    rw [hf]
    exact ⟨h, hE, rfl⟩

namespace Parallel

theorem pure (a : α) : Parallel R E (pure a) (pure a) := fun _ h hR => ⟨h, hR, rfl⟩

theorem bind {f : Run σ α} {f' : Run τ α} {g : α → Run σ β} {g' : α → Run τ β}
    (hf : Parallel R E f f') (hg : ∀ a, Parallel R E (g a) (g' a)) :
    Parallel R E (f >>= g) (f' >>= g') :=
  fun s h hR => (hf s h hR).bind hg

section

variable (hE : ∀ s h, R s h → E s h)

include hE

theorem stop (x : Stop) : Parallel (α := α) R E (throw x) (throw x) :=
  fun _ h hR => ⟨h, hE _ _ hR, rfl⟩

theorem ofExcept (x : Except Fault α) : Parallel R E (ofExcept x) (ofExcept x) := by
  cases x with
  | ok a => exact .pure a
  | error f => exact stop hE _

theorem tick (limits : Limits) (S : Stack) : Parallel R E (tick limits S) (tick limits S) := by
  intro s h hR
  obtain ⟨depth, steps, stack⟩ := limits
  cases steps with
  | none =>
    rw [tick_none ⟨depth, none, stack⟩ S, tick_none ⟨depth, none, stack⟩ S]
    split
    · exact ⟨h, hE _ _ hR, rfl⟩
    · exact ⟨h, hR, rfl⟩
  | some n =>
    have hsteps : (s.withHost h).steps = s.steps := rfl
    rw [tick_some ⟨depth, none, stack⟩ n S, tick_some ⟨depth, none, stack⟩ n S, hsteps]
    split
    · exact ⟨h, hE _ _ hR, rfl⟩
    · split
      · exact ⟨h, hE _ _ hR, rfl⟩
      · exact ⟨h, hR, rfl⟩

theorem instr {env : Env σ} {i : Instr} (hi : ∀ j, i ≠ .rule j) (rule : ℕ → Run σ Value)
    (rule' : ℕ → Run τ Value) (S : Stack) :
    Parallel R E (i.run env rule S) (i.run (env.withHost G) rule' S) := by
  cases i with
  | rule j => exact absurd rfl (hi j)
  | push c => exact (ofExcept hE _).bind fun v => .pure _
  | pop => exact (ofExcept hE _).bind fun x => .pure _
  | popPos =>
    refine (ofExcept hE _).bind fun x => (ofExcept hE _).bind fun p => ?_
    exact fun s h hR => ⟨h, hR, rfl⟩
  | popN | nip | append | wrap => exact ofExcept hE _
  | text =>
    refine (ofExcept hE _).bind fun x => (ofExcept hE _).bind fun v => (ofExcept hE _).bind fun p => ?_
    exact fun s h hR => ⟨h, hR, rfl⟩
  | acceptString =>
    refine (ofExcept hE _).bind fun t => ?_
    exact fun s h hR => ⟨h, hR, rfl⟩
  | fail =>
    refine (ofExcept hE _).bind fun e => ?_
    intro s h hR
    have hsilence : (s.withHost h).silence = s.silence := rfl
    change Mirrored R E (.ok (.failed :: S) { s with toProgress := s.toProgress.fail e })
      (.ok (.failed :: S) { s.withHost h with toProgress := (s.withHost h).toProgress.fail e })
    rw [Progress.fail, Progress.fail, hsilence]
    split
    · exact ⟨h, hR, rfl⟩
    · exact ⟨h, hR, rfl⟩
  | reportSaved =>
    refine (ofExcept hE _).bind fun v => (ofExcept hE _).bind fun p => ?_
    exact fun s h hR => ⟨h, hR, rfl⟩
  | pushPos | acceptN | reportHere | silenceOn | silenceOff => exact fun s h hR => ⟨h, hR, rfl⟩

theorem test {env : Env σ} (t : Test) (S : Stack) :
    Parallel R E (t.ask env S) (t.ask (env.withHost G) S) := by
  intro s h hR
  have hholds : t.holds (env.withHost G) s.pos S = t.holds env s.pos S := by cases t <;> rfl
  change Mirrored R E (Run.ofExcept (t.holds env s.pos S) s)
    (Run.ofExcept (t.holds (env.withHost G) s.pos S) (s.withHost h))
  rw [hholds]
  exact ofExcept hE _ s h hR

theorem callHost {env : Env σ} (hH : env.host.Mirrors R G) (f : UInt32) (args : List Value) :
    Parallel R E (callHost env f args) (callHost (env.withHost G) f args) := by
  cases hf : env.program.function f with
  | error e =>
    have hfault : Run.callHost env f args = fault e ∧
        Run.callHost (env.withHost G) f args = fault e := by
      have hf' : (env.withHost G).program.function f = .error e := hf
      rw [Run.callHost, Run.callHost, hf, hf']
      exact ⟨rfl, rfl⟩
    rw [hfault.1, hfault.2]
    exact stop hE _
  | ok fn =>
    intro s h hR
    rw [callHost_eq env hf, callHost_eq (env.withHost G) hf]
    obtain ⟨hanswer, hafter⟩ := hH fn ⟨env.input, s.reported, s.pos⟩ args s.host h hR
    generalize env.host fn ⟨env.input, s.reported, s.pos⟩ args s.host = x at hanswer hafter ⊢
    generalize hy : (env.withHost G).host fn ⟨(env.withHost G).input, (s.withHost h).reported,
      (s.withHost h).pos⟩ args (s.withHost h).host = y
    have hy : G fn ⟨env.input, s.reported, s.pos⟩ args h = y := hy
    rw [hy] at hanswer hafter
    obtain ⟨answer, k⟩ := x
    obtain ⟨answer', k'⟩ := y
    obtain rfl : answer' = answer := hanswer
    cases answer' with
    | ok v => exact ⟨k', hafter, rfl⟩
    | error e => exact ⟨k', hE _ _ hafter, rfl⟩

theorem lockstep {env : Env σ} (hH : env.host.Mirrors R G) :
    Lockstep env (env.withHost G) fun _ => Parallel R E where
  pure := .pure
  stop := stop hE
  bind := bind
  tick := tick hE _
  instr := instr hE
  test := test hE
  call := callHost hE hH

theorem rule {env : Env σ} (hH : env.host.Mirrors R G) (rules : List LoadedRule) (fuel depth i : ℕ) :
    Parallel R E (Run.rule env rules fuel depth i) (Run.rule (env.withHost G) rules fuel depth i) := by
  induction depth generalizing i with
  | zero =>
    rw [Run.rule, Run.rule]
    cases rules[i]? with
    | none => exact stop hE _
    | some r => exact stop hE _
  | succ depth ih =>
    rw [Run.rule, Run.rule]
    cases rules[i]? with
    | none => exact stop hE _
    | some r => exact ((lockstep hE hH).block ih r.body []).bind fun S => ofExcept hE _

end

end Parallel
end Run

namespace Machine

/-- The machine with another host. -/
def withHost (m : Machine σ) (G : Host τ) : Machine τ := ⟨m.program, G, m.limits, m.fuel⟩

variable {m : Machine σ}

theorem run_parallel (hE : ∀ s h, R s h → E s h) (hH : m.host.Mirrors R G) (i : ℕ) (input : String) :
    Run.Parallel R E (m.run i input) ((m.withHost G).run i input) := by
  have hreset : Run.Parallel R E (reset (σ := σ)) (reset (σ := τ)) := fun _ h hR => ⟨h, hR, rfl⟩
  refine hreset.bind fun _ => ?_
  have hhost : (m.env input).host.Mirrors R G := hH
  refine (Run.Parallel.rule hE hhost m.program.load m.fuel m.limits.callDepth i).bind fun v => ?_
  exact fun _ h hR => ⟨h, hR, rfl⟩

theorem parse_parallel (hE : ∀ s h, R s h → E s h) (hH : m.host.Mirrors R G) (start input : String) :
    Run.Parallel R E (m.parse start input) ((m.withHost G).parse start input) := by
  unfold parse
  have hindex : (m.withHost G).program.ruleIndex? start = m.program.ruleIndex? start := rfl
  rw [hindex]
  cases m.program.ruleIndex? start with
  | none => exact .stop hE _
  | some i =>
    refine (run_parallel hE hH i input).bind fun o => ?_
    have hinput : ((m.withHost G).env input).input = (m.env input).input := rfl
    rw [hinput]
    split
    · exact .pure _
    · split
      · exact fun _ h hR => ⟨h, hE _ _ hR, rfl⟩
      · exact fun _ h hR => ⟨h, hE _ _ hR, rfl⟩

end Machine
end PegMachine
