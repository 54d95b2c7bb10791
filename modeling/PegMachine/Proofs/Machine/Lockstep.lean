import PegMachine.Machine.Run
import PegMachine.Proofs.Results

/-! Two machines in lockstep. A relation that holds between the single instructions of the two, and that
is kept when parts of runs follow one another, holds between the runs of any code. -/
namespace PegMachine

open Run

variable {σ τ : Type} {env : Env σ} {env' : Env τ} {R : ∀ ⦃α : Type⦄, Run σ α → Run τ α → Prop}
  {rule : ℕ → Run σ Value} {rule' : ℕ → Run τ Value} {fuel fuel' : ℕ} {name : String}

/-- Asks a test at the place where the run stands. -/
def Test.ask (env : Env σ) (t : Test) (S : Stack) : Run σ (Bool × Stack) := do
  let s ← get
  ofExcept (t.holds env s.pos S)

theorem Block.run_branch (ip m n : ℕ) (t : Test) (yes no rest : Block) (S : Stack) :
    (Block.branch ip t m n yes no rest).run env fuel rule name S = (do
      tick env.limits S
      let (answer, T) ← t.ask env S
      let U ← if answer then yes.run env fuel rule name T else no.run env fuel rule name T
      rest.run env fuel rule name U) :=
  rfl

/-- `R` relates what the two machines do, instruction by instruction. -/
structure Lockstep (env : Env σ) (env' : Env τ) (R : ∀ ⦃α : Type⦄, Run σ α → Run τ α → Prop) :
    Prop where
  pure {α : Type} (a : α) : R (pure a) (pure a)
  stop {α : Type} (x : Stop) : R (α := α) (throw x) (throw x)
  bind {α β : Type} {f : Run σ α} {f' : Run τ α} {g : α → Run σ β} {g' : α → Run τ β} (hf : R f f')
    (hg : ∀ a, R (g a) (g' a)) : R (f >>= g) (f' >>= g')
  tick (S : Stack) : R (tick env.limits S) (tick env'.limits S)
  instr {i : Instr} (hi : ∀ j, i ≠ .rule j) (rule : ℕ → Run σ Value) (rule' : ℕ → Run τ Value)
    (S : Stack) : R (i.run env rule S) (i.run env' rule' S)
  test (t : Test) (S : Stack) : R (t.ask env S) (t.ask env' S)
  call (f : UInt32) (args : List Value) : R (callHost env f args) (callHost env' f args)

namespace Lockstep

theorem ofExcept (h : Lockstep env env' R) {α : Type} (x : Except Fault α) :
    R (ofExcept x) (ofExcept x) := by
  cases x with
  | ok a => exact h.pure a
  | error f => exact h.stop _

theorem whileMatched (h : Lockstep env env' R) {body : Stack → Run σ Stack}
    {body' : Stack → Run τ Stack} (hb : ∀ S, R (body S) (body' S)) (fuel : ℕ) (S : Stack) :
    R (whileMatched body fuel S) (whileMatched body' fuel S) := by
  induction fuel generalizing S with
  | zero =>
    rw [Run.whileMatched, Run.whileMatched]
    refine h.bind (h.ofExcept _) fun v => ?_
    split
    · exact h.pure S
    · exact h.stop _
  | succ fuel ih =>
    rw [Run.whileMatched, Run.whileMatched]
    refine h.bind (h.ofExcept _) fun v => ?_
    split
    · exact h.pure S
    · exact h.bind (hb S) ih

theorem instruction (h : Lockstep env env' R) (hr : ∀ j, R (rule j) (rule' j)) (i : Instr) (S : Stack) :
    R (i.run env rule S) (i.run env' rule' S) := by
  cases i with
  | rule j => exact h.bind (hr j.toNat) fun v => h.pure _
  | _ => exact h.instr (by simp) _ _ S

/-- Any code, if the rules that it runs are related, and its loops with the passes granted to them. -/
theorem block_of_loops (h : Lockstep env env' R) (hr : ∀ j, R (rule j) (rule' j))
    (hloop : ∀ (body : Stack → Run σ Stack) (body' : Stack → Run τ Stack),
      (∀ S, R (body S) (body' S)) → ∀ S, R (Run.whileMatched body fuel S) (Run.whileMatched body' fuel' S))
    (b : Block) (S : Stack) : R (b.run env fuel rule name S) (b.run env' fuel' rule' name S) := by
  induction b generalizing S with
  | done => exact h.pure S
  | unknown | branchOverrun | loopOverrun => exact h.bind (h.tick S) fun _ => h.stop _
  | truncated => exact h.bind (h.tick S) fun _ => h.bind (h.ofExcept _) fun _ => h.stop _
  | instr _ i rest ih => exact h.bind (h.tick S) fun _ => h.bind (h.instruction hr i S) ih
  | branch _ t _ _ yes no rest ihy ihn ih =>
    rw [Block.run_branch, Block.run_branch]
    refine h.bind (h.tick S) fun _ => h.bind (h.test t S) fun x => ?_
    obtain ⟨answer, T⟩ := x
    cases answer with
    | true => exact h.bind (ihy T) ih
    | false => exact h.bind (ihn T) ih
  | loop _ _ body rest ihb ih =>
    exact h.bind (h.tick S) fun _ => h.bind (hloop _ _ ihb S) ih
  | call _ f pops slots rest ih =>
    refine h.bind (h.tick S) fun _ => h.bind (h.ofExcept _) fun args => ?_
    exact h.bind (h.call f args) fun v => h.bind (h.ofExcept _) fun T => ih _

/-- The same passes are granted to both. -/
theorem block (h : Lockstep env env' R) (hr : ∀ j, R (rule j) (rule' j)) (b : Block) (S : Stack) :
    R (b.run env fuel rule name S) (b.run env' fuel rule' name S) :=
  h.block_of_loops hr (fun _ _ hb => h.whileMatched hb fuel) b S

end Lockstep
end PegMachine
