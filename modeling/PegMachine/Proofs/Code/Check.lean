import PegMachine.Proofs.Code.Balance

/-! Balanced code has the height that the checker finds, as long as its counts are no negative
numbers to it. -/
namespace PegMachine

variable {M h k : ℕ} {c : Code}

theorem signed_of_lt {w : UInt32} (h : w.toNat < 0x80000000) : signed w = w.toNat := by
  rw [signed, if_pos h]

theorem signed_le (w : UInt32) : signed w ≤ w.toNat := by
  unfold signed
  split <;> omega

theorem Instr.pops_eq_takes {i : Instr} (h : i.takes < 0x80000000) : i.pops = i.takes := by
  cases i with
  | popN n | wrap n => exact signed_of_lt h
  | reportSaved n =>
    have hn : n.toNat < 0x80000000 := by
      rw [takes] at h
      omega
    simp [pops, takes, signed_of_lt hn]
  | _ => rfl

theorem Instr.pushes_eq_gives {i : Instr} (h : i.takes < 0x80000000) : i.pushes = i.gives := by
  cases i with
  | reportSaved n => exact Instr.pops_eq_takes h
  | _ => rfl

theorem Test.pops_eq_takes (t : Test) : t.pops = t.takes := by
  cases t <;> rfl

namespace Block

theorem need_eq_ok {ip h : ℕ} {op : Opcode} (hr : op.reads ≤ h) : need ip op h = .ok () := by
  rw [need, if_neg]
  omega

theorem needSlots_eq_ok {ip h : ℕ} {slots : Code} (hs : ∀ x ∈ slots, x.toNat < h) :
    needSlots ip h slots = .ok () := by
  induction slots with
  | nil => rfl
  | cons x xs ih =>
    have hx := hs x List.mem_cons_self
    have hl := signed_le x
    rw [needSlots, if_neg (by omega)]
    exact ih fun y hy => hs y (List.mem_cons_of_mem _ hy)

end Block

/-- The checker accepts balanced code whose calls read below the height, and finds its height. -/
theorem Balanced.height_eq_ok (hM : M < 0x80000000) (hc : Balanced (fun h n => n < h) M c h k)
    (ip : ℕ) : (Block.read ip c).height h = .ok (k : ℤ) := by
  induction hc generalizing ip with
  | nil h =>
    rw [Block.read_nil]
    rfl
  | @instr i c h k hiM ht hc ih =>
    have hi : i.takes < 0x80000000 := by omega
    have hh : ((h - i.takes + i.gives : ℕ) : ℤ) = h - i.pops + i.pushes := by
      rw [Instr.pops_eq_takes hi, Instr.pushes_eq_gives hi]
      omega
    have hp := Instr.pops_eq_takes hi
    rw [Block.read_instr, Block.height_instr, if_neg (by omega), ← hh]
    exact ih _
  | @branch t yes no br c h j k hb ht hy hn hc ihy ihn ih =>
    obtain ⟨m, n, hr⟩ := Block.read_branch hb ip
    have hl := t.takes_le_reads
    have hh : ((h - t.takes : ℕ) : ℤ) = h - t.pops := by
      rw [Test.pops_eq_takes]
      omega
    rw [hr, Block.height_branch, Block.need_eq_ok ht, ← hh, ihy m, ihn n]
    simp only [bind, Except.bind, if_true]
    exact ih _
  | @loop body lp c h k hl ht hb hc ihb ih =>
    obtain ⟨m, hr⟩ := Block.read_loop hl ip
    rw [hr, Block.height_loop, Block.need_eq_ok ht, ihb m]
    simp only [bind, Except.bind, if_true]
    exact ih _
  | @call f pops n slots c h k hn hpM ht hs hc ih =>
    have hp : signed pops = pops.toNat := signed_of_lt (by omega)
    have hh : ((h - pops.toNat + 1 : ℕ) : ℤ) = h - signed pops + 1 := by omega
    rw [Block.read_call hn, Block.height_call, Block.needSlots_eq_ok hs]
    simp only [bind, Except.bind]
    rw [if_neg (by omega), ← hh]
    exact ih _

end PegMachine
