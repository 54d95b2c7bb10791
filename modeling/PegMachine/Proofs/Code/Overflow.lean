import PegMachine.Code.Height
import PegMachine.Proofs.Results

/-! How far the kinds of arithmetic agree. Up to the first number that is out of range, a check in 32 bits
is the check with numbers of any size, whether it would go round the range or stop. -/
namespace PegMachine

variable {ε α β : Type}

namespace Arithmetic

variable {a : Arithmetic ε}

/-- Numbers in range are kept as they are. -/
def Keeps (a : Arithmetic ε) : Prop := ∀ n, -0x80000000 ≤ n → n < 0x80000000 → a.fit n = .ok n

theorem exact_keeps : exact.Keeps := fun _ _ _ => rfl

theorem wrapping_keeps : wrapping.Keeps := by
  intro n hlo hhi
  exact congrArg Except.ok (Int.bmod_eq_of_le (by omega) (by omega))

theorem trapping_check_injective {r s : Except HeightError α} (h : trapping.check r = trapping.check s) :
    r = s := by
  cases r <;> cases s <;> cases h <;> rfl

/-- `y` is in arithmetic `a` what `x` is in 32 bits, unless `x` stops out of range. -/
def Agrees (a : Arithmetic ε) (x : Except HeightStop α) (y : Except ε α) : Prop :=
  x = .error .overflow ∨ ∃ r : Except HeightError α, x = trapping.check r ∧ y = a.check r

namespace Agrees

theorem check (r : Except HeightError α) : Agrees a (trapping.check r) (a.check r) :=
  .inr ⟨r, rfl, rfl⟩

theorem refuse (e : HeightError) : Agrees a (trapping.refuse e : Except HeightStop α) (a.refuse e) :=
  check (.error e)

theorem fit (ha : a.Keeps) (n : ℤ) : Agrees a (trapping.fit n) (a.fit n) := by
  by_cases hn : -0x80000000 ≤ n ∧ n < 0x80000000
  · exact .inr ⟨.ok n, if_pos hn, ha n hn.1 hn.2⟩
  · exact .inl (if_neg hn)

theorem bind {x : Except HeightStop α} {y : Except ε α} {f : α → Except HeightStop β}
    {g : α → Except ε β} (hx : Agrees a x y) (hf : ∀ v, Agrees a (f v) (g v)) :
    Agrees a (x >>= f) (y >>= g) := by
  rcases hx with rfl | ⟨r, rfl, rfl⟩
  · exact .inl rfl
  · cases r with
    | ok v => exact hf v
    | error e => exact refuse e

theorem ite {x x' : Except HeightStop α} {y y' : Except ε α} (c : Prop) [Decidable c]
    (h : Agrees a x y) (h' : Agrees a x' y') :
    Agrees a (if c then x else x') (if c then y else y') := by
  split
  · exact h
  · exact h'

end Agrees
end Arithmetic

open Arithmetic

theorem Block.heightIn_agrees {a : Arithmetic ε} (ha : a.Keeps) (b : Block) (h : ℤ) :
    Agrees a (b.heightIn .trapping h) (b.heightIn a h) := by
  induction b generalizing h with
  | done => exact .check (.ok h)
  | unknown ip w => exact .refuse _
  | truncated ip op slots => exact (Agrees.check _).bind fun _ => (Agrees.check _).bind fun _ => .refuse _
  | branchOverrun ip t m n => exact (Agrees.check _).bind fun _ => .refuse _
  | loopOverrun ip n => exact (Agrees.check _).bind fun _ => .refuse _
  | instr ip i rest ih =>
    refine (Agrees.fit ha _).bind fun pops => (Agrees.fit ha _).bind fun pushes => ?_
    refine (Agrees.fit ha _).bind fun left => .ite _ (.refuse _) ?_
    exact (Agrees.fit ha _).bind ih
  | branch ip t m n yes no rest ihy ihn ih =>
    refine (Agrees.check _).bind fun _ => (Agrees.fit ha _).bind fun left => ?_
    exact (ihy left).bind fun y => (ihn left).bind fun z => .ite _ (ih y) (.refuse _)
  | loop ip n body rest ihb ih =>
    exact (Agrees.check _).bind fun _ => (ihb h).bind fun k => .ite _ (ih h) (.refuse _)
  | call ip f pops slots rest ih =>
    refine (Agrees.check _).bind fun _ => .ite _ (.refuse _) ?_
    exact (Agrees.fit ha _).bind fun left => (Agrees.fit ha _).bind ih

/-- Where no number is out of range, a check in 32 bits finds the height, or the fault, that is found with
numbers of any size. -/
theorem Code.heightIn_eq_height {code : Code} {h : ℤ}
    (hin : code.heightIn .trapping h ≠ .error .overflow) :
    code.heightIn .trapping h = trapping.check (code.height h) ∧
      code.heightIn .wrapping h = code.height h := by
  rcases (Block.read 0 code).heightIn_agrees exact_keeps h with hover | ⟨r, hr, hexact⟩
  · exact (hin hover).elim
  · rcases (Block.read 0 code).heightIn_agrees wrapping_keeps h with hover | ⟨r', hr', hwrap⟩
    · exact (hin hover).elim
    · obtain rfl := trapping_check_injective (hr.symm.trans hr')
      have hheight : code.height h = r := hexact.trans (exact_check r)
      exact ⟨hr.trans (congrArg _ hheight.symm), (hwrap.trans (exact_check r)).trans hheight.symm⟩

/-- The height goes round the range and is back where it was. -/
example :
    let code : Code := [15, 6, 0, 4, 0x80000001, 0, 0, 4, 0x80000000, 0, 0]
    code.heightIn .wrapping 0 = .ok 1 ∧ code.heightIn .trapping 0 = .error .overflow ∧
      code.height 0 = .error ⟨0, .unequal .matchAny 0x100000000 0⟩ := by
  decide +kernel

end PegMachine
