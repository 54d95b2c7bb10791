import Mathlib.Data.List.Basic
import PegMachine.Grammar.CharClass
import PegMachine.Proofs.Text.Case

/-! Classes that ignore case. The character looked up is taken in lower and in upper case too, the
members of the class only as they are written. So two cases of a letter are alike to all such classes
just where each is a case of the other. -/
namespace PegMachine

open Text

variable {k : CharClass} {c d x : Char}

namespace CharClass

theorem mem_candidates (hk : k.ignoreCase = true) :
    x ∈ k.candidates c ↔ x ∈ lowerChar c ∨ x ∈ upperChar c ∨ x = c := by
  simp [candidates, hk]

/-- A class accepts alike what it looks up alike. -/
theorem accepts_congr (h : ∀ x, x ∈ k.candidates c ↔ x ∈ k.candidates d) :
    k.accepts c = k.accepts d := by
  have hany : (k.candidates c).any k.contains = (k.candidates d).any k.contains := by
    rw [Bool.eq_iff_iff, List.any_eq_true, List.any_eq_true]
    simp only [h]
  rw [accepts, accepts, hany]

/-- Two cases of a letter are looked up alike if each is a case of the other. -/
theorem mem_candidates_comm (hk : k.ignoreCase = true) (h : Recases c d) (hback : Recases d c) :
    x ∈ k.candidates c ↔ x ∈ k.candidates d := by
  rw [mem_candidates hk, mem_candidates hk]
  rcases h with hlower | hupper <;> rcases hback with hlower' | hupper'
  · have hd := lowerChar_lowerChar hlower
    simp_all
  · have hd := lowerChar_lowerChar hlower
    have hc := upperChar_upperChar hupper'
    simp only [hlower, hupper', hd, hc, List.mem_singleton]
    tauto
  · have hd := upperChar_upperChar hupper
    have hc := lowerChar_lowerChar hlower'
    simp only [hupper, hlower', hd, hc, List.mem_singleton]
    tauto
  · have hd := upperChar_upperChar hupper
    simp_all

/-- The class of one character that ignores case. -/
def caseless (c : Char) : CharClass := ⟨[.char c], false, true⟩

theorem caseless_accepts : (caseless c).accepts d = true ↔ c ∈ (caseless c).candidates d := by
  simp [accepts, contains, caseless, ClassPart.has, List.any_eq_true]

/-- A character and one of its cases are alike to every class that ignores case, whatever its parts
and inverted or not, just where the character is a case of that one in turn. -/
theorem accepts_case_iff (h : Recases c d) :
    (∀ k : CharClass, k.ignoreCase = true → k.accepts c = k.accepts d) ↔ Recases d c := by
  constructor
  · intro halike
    have hself : (caseless c).accepts c = true :=
      caseless_accepts.mpr ((mem_candidates rfl).mpr (.inr (.inr rfl)))
    rw [halike (caseless c) rfl] at hself
    rcases (mem_candidates rfl).mp (caseless_accepts.mp hself) with hlower | hupper | rfl
    · exact h.of_mem (.inl hlower)
    · exact h.of_mem (.inr hupper)
    · exact h
  · intro hback k hk
    exact accepts_congr fun x => mem_candidates_comm hk h hback

/-- The capital sigma and its small form are cases of each other. -/
theorem accepts_case_iff_sigma :
    Recases 'Σ' 'σ' ∧ ∀ k : CharClass, k.ignoreCase = true → k.accepts 'Σ' = k.accepts 'σ' := by
  have h : Recases 'Σ' 'σ' := by decide +kernel
  have hback : Recases 'σ' 'Σ' := by decide +kernel
  exact ⟨h, (accepts_case_iff h).mpr hback⟩

/-- The long s and its upper case are not. -/
theorem long_s_told_apart :
    let k : CharClass := ⟨[.char 'ſ'], false, true⟩
    k.ignoreCase = true ∧ upperChar 'ſ' = ['S'] ∧ k.accepts 'ſ' = true ∧ k.accepts 'S' = false := by
  decide +kernel

end CharClass
end PegMachine
