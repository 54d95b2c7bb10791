import PegMachine.Machine.Run
import PegMachine.Proofs.Code.Verified

/-! Operands that go down the stack, where the check meets them. The check takes an operand for a signed
number and the machine for an unsigned one, so the check bounds just those operands that are the same
number to both. -/
namespace PegMachine

variable {h k z : ℤ} {b : Block} {i : Instr} {slots : Code}

/-- How far down the stack an operand goes. -/
inductive Reach where
  /-- The number of values that are taken. -/
  | count (n : UInt32)
  /-- The place below the top at which a value is read. -/
  | slot (n : UInt32)

namespace Reach

def word : Reach → UInt32
  | .count n | .slot n => n

/-- The operand, as the machine reads it, stays inside a stack of height `h`. -/
def Fits (h : ℤ) : Reach → Prop
  | .count n => n.toNat ≤ h
  | .slot n => n.toNat < h

/-- It does as the check reads it. -/
def Passes (h : ℤ) : Reach → Prop
  | .count n => signed n ≤ h
  | .slot n => signed n < h

end Reach

def Instr.reaches : Instr → List Reach
  | .popN n | .wrap n => [.count n]
  | .reportSaved n => [.slot n]
  | _ => []

/-- `b.Checks h r k`: from height `h` the check of the code comes to an instruction with the operand `r`
at height `k`. -/
inductive Block.Checks : Block → ℤ → Reach → ℤ → Prop
  | instr {ip : ℕ} {i : Instr} {rest : Block} {h : ℤ} {r : Reach} (hr : r ∈ i.reaches) :
      Checks (.instr ip i rest) h r h
  | afterInstr {ip : ℕ} {i : Instr} {rest : Block} {h k : ℤ} {r : Reach}
      (hr : rest.Checks (h - i.pops + i.pushes) r k) : Checks (.instr ip i rest) h r k
  | yes {ip m n : ℕ} {t : Test} {yes no rest : Block} {h k : ℤ} {r : Reach}
      (hr : yes.Checks (h - t.pops) r k) : Checks (.branch ip t m n yes no rest) h r k
  | no {ip m n : ℕ} {t : Test} {yes no rest : Block} {h k : ℤ} {r : Reach}
      (hr : no.Checks (h - t.pops) r k) : Checks (.branch ip t m n yes no rest) h r k
  | afterBranch {ip m n : ℕ} {t : Test} {yes no rest : Block} {h j k : ℤ} {r : Reach}
      (hj : yes.height (h - t.pops) = .ok j) (hr : rest.Checks j r k) :
      Checks (.branch ip t m n yes no rest) h r k
  | body {ip n : ℕ} {body rest : Block} {h k : ℤ} {r : Reach} (hr : body.Checks h r k) :
      Checks (.loop ip n body rest) h r k
  | afterLoop {ip n : ℕ} {body rest : Block} {h k : ℤ} {r : Reach} (hr : rest.Checks h r k) :
      Checks (.loop ip n body rest) h r k
  | pops {ip : ℕ} {f pops : UInt32} {slots : Code} {rest : Block} {h : ℤ} :
      Checks (.call ip f pops slots rest) h (.count pops) h
  | slot {ip : ℕ} {f pops n : UInt32} {slots : Code} {rest : Block} {h : ℤ} (hn : n ∈ slots) :
      Checks (.call ip f pops slots rest) h (.slot n) h
  | afterCall {ip : ℕ} {f pops : UInt32} {slots : Code} {rest : Block} {h k : ℤ} {r : Reach}
      (hr : rest.Checks (h - signed pops + 1) r k) : Checks (.call ip f pops slots rest) h r k

namespace Reach

variable {r : Reach}

theorem Passes.fits (hr : r.Passes h) (hw : r.word.toNat < 2 ^ 31) : r.Fits h := by
  cases r with
  | count n | slot n =>
    have hs : signed n = n.toNat := signed_of_lt hw
    rw [Passes, hs] at hr
    exact hr

theorem Fits.word_lt (hr : r.Fits h) (hh : h < 2 ^ 31) : r.word.toNat < 2 ^ 31 := by
  cases r with
  | count n | slot n =>
    simp only [Fits, word] at hr ⊢
    omega

end Reach

/-- An instruction puts back what it only looks through. -/
theorem Instr.nonneg (hh : 0 ≤ h) (hp : 0 ≤ h - i.pops) : 0 ≤ h - i.pops + i.pushes := by
  cases i with
  | reportSaved n =>
    rw [pops, pushes]
    omega
  | _ =>
    simp only [pops, pushes] at hp ⊢
    omega

theorem Instr.passes_of_pops {r : Reach} (hr : r ∈ i.reaches) (hp : 0 ≤ h - i.pops) : r.Passes h := by
  cases i <;> simp only [reaches, List.mem_singleton, List.not_mem_nil] at hr
  case popN n | wrap n =>
    subst hr
    simp only [pops] at hp
    simp only [Reach.Passes]
    omega
  case reportSaved n =>
    subst hr
    simp only [pops] at hp
    simp only [Reach.Passes]
    omega

namespace Block

theorem passes_of_needSlots {ip : ℕ} {u : Unit} (hs : needSlots ip h slots = .ok u) :
    ∀ n ∈ slots, (Reach.slot n).Passes h := by
  induction slots with
  | nil => simp
  | cons n slots ih =>
    rw [needSlots] at hs
    split at hs
    · cases hs
    · next hn => exact List.forall_mem_cons.mpr ⟨not_le.mp hn, ih hs⟩

theorem pops_le_of_need {ip : ℕ} {t : Test} {u : Unit} (hn : need ip t.opcode h = .ok u)
    (hh : 0 ≤ h) : 0 ≤ h - t.pops := by
  unfold need at hn
  split at hn
  · cases hn
  · cases t <;> simp_all [Test.pops, Test.opcode, Opcode.reads] <;> omega

/-- The check finds no height below zero. -/
theorem height_nonneg (hb : b.height h = .ok z) (hh : 0 ≤ h) : 0 ≤ z := by
  induction b generalizing h z with
  | done =>
    obtain rfl := Except.ok.inj hb
    exact hh
  | unknown => cases hb
  | truncated =>
    obtain ⟨_, -, hb⟩ := except_bind_eq_ok.mp hb
    obtain ⟨_, -, hb⟩ := except_bind_eq_ok.mp hb
    cases hb
  | branchOverrun | loopOverrun =>
    obtain ⟨_, -, hb⟩ := except_bind_eq_ok.mp hb
    cases hb
  | instr ip i rest ih =>
    obtain ⟨hp, hb⟩ := height_instr_eq_ok hb
    exact ih hb (Instr.nonneg hh hp)
  | branch ip t m n yes no rest ihy ihn ih =>
    obtain ⟨y, hneed, hy, -, hb⟩ := height_branch_eq_ok hb
    exact ih hb (ihy hy (pops_le_of_need hneed hh))
  | loop ip n body rest ihb ih =>
    obtain ⟨-, -, hb⟩ := height_loop_eq_ok hb
    exact ih hb hh
  | call ip f pops slots rest ih =>
    obtain ⟨-, hp, hb⟩ := height_call_eq_ok hb
    exact ih hb (by omega)

/-- Where the whole code has a height, no operand that the check comes to is too large for it. -/
theorem Checks.passes {r : Reach} (hc : b.Checks h r k) (hh : 0 ≤ h) (hb : b.height h = .ok z) :
    0 ≤ k ∧ r.Passes k := by
  induction hc generalizing z with
  | instr hr =>
    obtain ⟨hp, -⟩ := height_instr_eq_ok hb
    exact ⟨hh, Instr.passes_of_pops hr hp⟩
  | afterInstr _ ih =>
    obtain ⟨hp, hb⟩ := height_instr_eq_ok hb
    exact ih (Instr.nonneg hh hp) hb
  | yes _ ih =>
    obtain ⟨y, hneed, hy, -, -⟩ := height_branch_eq_ok hb
    exact ih (pops_le_of_need hneed hh) hy
  | no _ ih =>
    obtain ⟨y, hneed, -, hn, -⟩ := height_branch_eq_ok hb
    exact ih (pops_le_of_need hneed hh) hn
  | afterBranch hj _ ih =>
    obtain ⟨y, hneed, hy, -, hb⟩ := height_branch_eq_ok hb
    obtain rfl := Except.ok.inj (hy.symm.trans hj)
    exact ih (height_nonneg hy (pops_le_of_need hneed hh)) hb
  | body _ ih =>
    obtain ⟨-, hbody, -⟩ := height_loop_eq_ok hb
    exact ih hh hbody
  | afterLoop _ ih =>
    obtain ⟨-, -, hb⟩ := height_loop_eq_ok hb
    exact ih hh hb
  | pops =>
    obtain ⟨-, hp, -⟩ := height_call_eq_ok hb
    exact ⟨hh, hp⟩
  | slot hn =>
    obtain ⟨hs, -, -⟩ := height_call_eq_ok hb
    exact ⟨hh, passes_of_needSlots hs _ hn⟩
  | afterCall _ ih =>
    obtain ⟨-, hp, hb⟩ := height_call_eq_ok hb
    exact ih (by omega) hb

end Block

namespace Code

variable {c : Code} {r : Reach}

/-- In code that passes the check, an operand that goes down the stack stays inside it just where it is
below 2³¹: such an operand is bounded by the height there, and any other one, which is below zero to the
check, is larger than every height that the check can count to. -/
theorem checkRule_fits (hc : checkRule c = .ok ()) (hr : (Block.read 0 c).Checks 0 r k) :
    0 ≤ k ∧ (r.word.toNat < 2 ^ 31 → r.Fits k) ∧
      (k < 2 ^ 31 → r.Fits k → r.word.toNat < 2 ^ 31) := by
  obtain ⟨z, hz, -⟩ := except_bind_eq_ok.mp hc
  obtain ⟨hk, hp⟩ := hr.passes le_rfl hz
  exact ⟨hk, hp.fits, fun hlt hfits => hfits.word_lt hlt⟩

/-- Two places are put on the stack, one is looked at, a call takes one and gives one, and an array is
made of two. -/
theorem checkRule_fits_pair :
    let c : Code := [1, 1, 22, 1, 24, 0, 1, 1, 0, 7, 2]
    checkRule c = .ok () ∧ (Block.read 0 c).Checks 0 (.count 2) 2 ∧ (Reach.count 2).Fits 2 := by
  intro c
  have hc : checkRule c = .ok () := by decide +kernel
  have hb : Block.read 0 c = .instr 0 .pushPos (.instr 1 .pushPos (.instr 2 (.reportSaved 1)
      (.call 4 0 1 [0] (.instr 9 (.wrap 2) .done)))) := by
    decide +kernel
  have hr : (Block.read 0 c).Checks 0 (.count 2) 2 := by
    rw [hb]
    exact .afterInstr (.afterInstr (.afterInstr (.afterCall (.instr List.mem_cons_self))))
  exact ⟨hc, hr, (checkRule_fits hc hr).2.1 (by decide)⟩

/-- To take 2³² - 1 values from an empty stack passes the check, which finds a height of one after it.
The machine stops there. -/
theorem checkRule_misses_count :
    let c : Code := [4, 0xFFFFFFFF]
    let m : Machine Unit := ⟨⟨[⟨"r", c⟩], []⟩, .none, {}, 0⟩
    checkRule c = .ok () ∧ (Block.read 0 c).Checks 0 (.count 0xFFFFFFFF) 0 ∧
      ¬(Reach.count 0xFFFFFFFF).Fits 0 ∧
      ∃ t, m.run 0 "" (.start ()) = .error (.fault (.stackUnderflow 0xFFFFFFFF 0)) t := by
  intro c m
  have hb : Block.read 0 c = .instr 0 (.popN 0xFFFFFFFF) .done := by decide +kernel
  have hr : (Block.read 0 c).Checks 0 (.count 0xFFFFFFFF) 0 := by
    rw [hb]
    exact .instr List.mem_cons_self
  have hl : m.program.load = [⟨"r", .instr 0 (.popN 0xFFFFFFFF) .done⟩] := by decide +kernel
  have hrun : ∃ t, m.run 0 "" (.start ()) = .error (.fault (.stackUnderflow 0xFFFFFFFF 0)) t := by
    rw [Machine.run, hl]
    exact ⟨_, rfl⟩
  exact ⟨by decide +kernel, hr, by simp [Reach.Fits], hrun⟩

end Code
end PegMachine
