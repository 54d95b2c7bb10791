import PegMachine.Machine.Run
import PegMachine.Proofs.Code.Reading

/-! Runs of code, one equation for each way in which code is put together. After these the tree of
the code is not opened again. -/
namespace PegMachine

variable {σ : Type}

/-- What a rule's code runs with: the machine, the passes granted to a loop, what runs a rule, and
the name of this one. -/
structure Activation (σ : Type) where
  env : Env σ
  fuel : ℕ
  rule : ℕ → Run σ Value
  name : String

open Run

/-- Runs a stretch of code that starts at place `ip` on a stack. -/
def Activation.exec (A : Activation σ) (ip : ℕ) (c : Code) (S : Stack) : Run σ Stack :=
  (Block.read ip c).run A.env A.fuel A.rule A.name S

theorem Block.run_append (env : Env σ) (fuel : ℕ) (rule : ℕ → Run σ Value) (name : String)
    (b c : Block) (S : Stack) :
    (b.append c).run env fuel rule name S =
      b.run env fuel rule name S >>= c.run env fuel rule name := by
  induction b generalizing S with
  | done => simp [append, run]
  | unknown ip w => simp [append, run, fault]; rfl
  | truncated ip op slots => simp [append, run, fault]; rfl
  | branchOverrun ip t m n => simp [append, run, fault]; rfl
  | loopOverrun ip n => simp [append, run, fault]; rfl
  | instr ip i rest ih => simp [append, run, ih]
  | branch ip t m n yes no rest _ _ ih =>
    simp only [append, run, ih, bind_assoc]
    refine bind_congr fun _ => bind_congr fun s => bind_congr fun x => ?_
    split <;> simp only [bind_assoc]
  | loop ip n body rest _ ih => simp [append, run, ih]
  | call ip f p slots rest ih => simp [append, run, ih]

namespace Activation

variable {A : Activation σ} {ip : ℕ} {a b yes no body br lp c : Code} {t : Test} {S : Stack}

theorem exec_nil : A.exec ip [] S = pure S := by
  rw [exec, Block.read_nil, Block.run]

theorem exec_append (ha : a.Whole) :
    A.exec ip (a ++ b) S = A.exec ip a S >>= A.exec (ip + a.length) b := by
  rw [exec, ha, Block.run_append]
  rfl

theorem exec_instr (i : Instr) :
    A.exec ip i.words S = tick A.env.limits S >>= fun _ => i.run A.env A.rule S := by
  have h := Block.read_instr ip i []
  rw [List.append_nil] at h
  simp [exec, h, Block.read_nil, Block.run]

theorem exec_words (A : Activation σ) (ip : ℕ) (i : Instr) (c : Code) (S : Stack) :
    A.exec ip (i.words ++ c) S = (do
      tick A.env.limits S
      let S' ← i.run A.env A.rule S
      A.exec (ip + i.words.length) c S') := by
  rw [exec_append (Code.whole_instr i), exec_instr, bind_assoc]

/-- A test runs one of its bodies. -/
theorem exec_branch (h : Code.branch t.words yes no = .ok br) (A : Activation σ) (ip : ℕ)
    (S : Stack) :
    ∃ j k, A.exec ip br S = (do
      tick A.env.limits S
      let s ← get
      let (answer, S') ← ofExcept (t.holds A.env s.pos S)
      if answer then A.exec j yes S' else A.exec k no S') := by
  obtain ⟨j, k, hr⟩ := Block.read_branch h ip
  have hn := hr []
  rw [List.append_nil, Block.read_nil] at hn
  refine ⟨j, k, ?_⟩
  simp [exec, hn, Block.run]

theorem exec_loop (h : Code.loop (Code.op .whileMatched) body = .ok lp) (A : Activation σ)
    (ip : ℕ) (S : Stack) :
    ∃ j, A.exec ip lp S =
      tick A.env.limits S >>= fun _ => whileMatched (A.exec j body) A.fuel S := by
  obtain ⟨j, hr⟩ := Block.read_loop h ip
  have hn := hr []
  rw [List.append_nil, Block.read_nil] at hn
  refine ⟨j, ?_⟩
  simp [exec, hn, Block.run]
  rfl

theorem exec_call {f n k : UInt32} {slots : Code} (hk : k.toNat = slots.length) :
    A.exec ip (Opcode.call.word :: f :: n :: k :: slots) S = (do
      tick A.env.limits S
      let args ← ofExcept (S.peekAll slots)
      let v ← callHost A.env f args
      let S' ← ofExcept (S.popN n.toNat)
      pure (v :: S')) := by
  have hn := Block.read_call (f := f) (n := n) hk ip []
  rw [List.append_nil, Block.read_nil] at hn
  simp [exec, hn, Block.run]

end Activation

namespace Machine

/-- What the code of the rule called `name` runs with, where `depth` more rules may run inside it. -/
def activation (m : Machine σ) (input : String) (depth : ℕ) (name : String) : Activation σ :=
  ⟨m.env input, m.fuel, Run.rule (m.env input) m.program.load m.fuel depth, name⟩

theorem rule_eq (m : Machine σ) (input : String) (depth : ℕ) {i : ℕ} {r : RuleCode}
    (hi : m.program.rules[i]? = some r) :
    Run.rule (m.env input) m.program.load m.fuel (depth + 1) i =
      (m.activation input depth r.name).exec 0 r.code [] >>= fun S => ofExcept S.top := by
  have hl : m.program.load[i]? = some ⟨r.name, Block.read 0 r.code⟩ := by
    rw [Program.load, List.getElem?_map, hi]
    rfl
  rw [Run.rule, hl]
  rfl

end Machine
end PegMachine
