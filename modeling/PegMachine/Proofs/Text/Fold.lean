import Mathlib.Data.List.Basic
import PegMachine.Input

/-! Lower case of a text as a whole against that of its characters one by one. The two differ in the
final sigmas alone, and have as many characters: all have one in lower case, but for a dotted capital
I, which has two. -/
namespace PegMachine.Text

variable {before cs ds : List Char}

/-- Lower case of the characters one by one. -/
def fold (cs : List Char) : List Char := cs.flatMap lowerChar

/-- A capital sigma of the text, which follows `before` (nearest character first), is final. -/
def FinalSigma (before cs : List Char) : Prop :=
  ∃ a b, cs = a ++ 'Σ' :: b ∧ casedNext (a.reverse ++ before) = true ∧ casedNext b = false

theorem lowerChar_sigma : lowerChar 'Σ' = ['σ'] := by decide +kernel

theorem length_lowerChar (c : Char) :
    (lowerChar c).length = 1 + if c == 'İ' then 1 else 0 := by
  rw [lowerChar]
  by_cases hc : c = 'İ' <;> simp [hc]

theorem fold_cons (c : Char) (cs : List Char) : fold (c :: cs) = lowerChar c ++ fold cs :=
  List.flatMap_cons

theorem fold_append (cs ds : List Char) : fold (cs ++ ds) = fold cs ++ fold ds :=
  List.flatMap_append

theorem fold_mono (h : cs <+: ds) : fold cs <+: fold ds := by
  obtain ⟨es, rfl⟩ := h
  exact ⟨fold es, (fold_append cs es).symm⟩

theorem length_fold (cs : List Char) : (fold cs).length = cs.length + cs.count 'İ' := by
  induction cs with
  | nil => rfl
  | cons c cs ih =>
    rw [fold_cons, List.length_append, ih, length_lowerChar, List.count_cons, List.length_cons]
    omega

theorem length_lowerAfter (before cs : List Char) :
    (lowerAfter before cs).length = (fold cs).length := by
  induction cs generalizing before with
  | nil => rfl
  | cons c cs ih =>
    rw [lowerAfter, fold_cons, List.length_append, List.length_append, ih]
    by_cases hc : c = 'Σ'
    · rw [if_pos hc, hc, lowerChar_sigma]
      rfl
    · rw [if_neg hc]

theorem not_finalSigma_nil : ¬FinalSigma before [] := by
  rintro ⟨a, b, h, -⟩
  cases a <;> cases h

/-- The first character is a final sigma, or there is one after it. -/
theorem finalSigma_cons {c : Char} :
    FinalSigma before (c :: cs) ↔
      c = 'Σ' ∧ casedNext before = true ∧ casedNext cs = false ∨ FinalSigma (c :: before) cs := by
  constructor
  · rintro ⟨a, b, h, hbefore, hafter⟩
    cases a with
    | nil =>
      obtain ⟨rfl, rfl⟩ := List.cons.inj h
      exact .inl ⟨rfl, hbefore, hafter⟩
    | cons d a =>
      obtain ⟨rfl, rfl⟩ := List.cons.inj h
      refine .inr ⟨a, b, rfl, ?_, hafter⟩
      simpa using hbefore
  · rintro (⟨rfl, hbefore, hafter⟩ | ⟨a, b, rfl, hbefore, hafter⟩)
    · exact ⟨[], cs, rfl, hbefore, hafter⟩
    · refine ⟨c :: a, b, rfl, ?_, hafter⟩
      simpa using hbefore

/-- A final sigma is all that sets the text apart from its characters. -/
theorem lowerAfter_eq_fold_iff (before cs : List Char) :
    lowerAfter before cs = fold cs ↔ ¬FinalSigma before cs := by
  induction cs generalizing before with
  | nil => exact iff_of_true rfl not_finalSigma_nil
  | cons c cs ih =>
    rw [finalSigma_cons, not_or, ← ih, lowerAfter, fold_cons]
    by_cases hc : c = 'Σ'
    · subst hc
      rw [if_pos rfl, lowerChar_sigma]
      cases casedNext before <;> cases casedNext cs <;> simp
    · rw [if_neg hc]
      simp [hc]

theorem toList_lower (s : String) : (lower s).toList = lowerAfter [] s.toList := by
  rw [lower, String.toList_ofList]

theorem length_lower (s : String) : (lower s).length = s.length + s.toList.count 'İ' := by
  rw [← String.length_toList, toList_lower, length_lowerAfter, length_fold, String.length_toList]

theorem lower_ne_nil {s : String} (hs : s.isEmpty = false) : (lower s).toList ≠ [] := by
  intro h
  have hlength := length_lower s
  rw [← String.length_toList, h, List.length_nil] at hlength
  rw [String.isEmpty_iff.mpr (String.length_eq_zero_iff.mp (by omega))] at hs
  cases hs

/-- The text in lower case begins the folding of any text that it begins itself, unless it has a
final sigma. -/
theorem lower_prefix_fold_iff (s : String) (cs : List Char) :
    (lower s).toList <+: fold (s.toList ++ cs) ↔ ¬FinalSigma [] s.toList := by
  rw [← lowerAfter_eq_fold_iff, toList_lower, fold_append]
  have hlength := length_lowerAfter [] s.toList
  constructor
  · intro h
    have hfold := List.prefix_of_prefix_length_le h (List.prefix_append _ _) (Nat.le_of_eq hlength)
    exact hfold.eq_of_length hlength
  · intro h
    rw [h]
    exact List.prefix_append _ _

/-- What a text in lower case has been found to begin. -/
theorem fold_eq_lower_iff {s : String} (hcs : cs <+: ds) (hs : (lower s).toList <+: fold ds) :
    fold cs = (lower s).toList ↔
      cs.length + cs.count 'İ' = s.length + s.toList.count 'İ' := by
  rw [← length_fold, ← length_lower, ← String.length_toList]
  constructor
  · intro h
    rw [h]
  · intro h
    exact (List.prefix_of_prefix_length_le (fold_mono hcs) hs (Nat.le_of_eq h)).eq_of_length h

/-- Without a dotted capital I in either, as many characters are lowered to the text as it has. -/
theorem fold_take_eq_lower {s : String} (hs : (lower s).toList <+: fold ds) (hn : 'İ' ∉ s.toList)
    (hds : 'İ' ∉ ds.take s.length) : fold (ds.take s.length) = (lower s).toList := by
  rw [fold_eq_lower_iff (ds.take_prefix _) hs, List.count_eq_zero.mpr hn,
    List.count_eq_zero.mpr hds, List.length_take]
  by_contra hlt
  have hle := hs.length_le
  -- what is left is too short to be begun by the text
  rw [List.take_of_length_le (by omega)] at hds
  rw [String.length_toList, length_lower, length_fold, List.count_eq_zero.mpr hds] at hle
  omega

end PegMachine.Text

namespace PegMachine.Input

theorem toList_extract (input : Input) (p n : ℕ) :
    (input.extract p (p + n)).toList = (input.toList.drop p).take n := by
  simp

/-- As many characters are asked as may be needed. -/
theorem hasFoldedAt_iff {input : Input} {p : ℕ} {s : String} :
    input.hasFoldedAt p s = true ↔ s.toList <+: Text.fold (input.toList.drop p) := by
  rw [hasFoldedAt, List.isPrefixOf_iff_prefix, toList_extract]
  generalize input.toList.drop p = cs
  change s.toList <+: Text.fold (cs.take s.length) ↔ _
  have htake : Text.fold (cs.take s.length) <+: Text.fold cs := Text.fold_mono (cs.take_prefix _)
  refine ⟨fun h => h.trans htake, fun h => ?_⟩
  by_cases hlength : s.length ≤ cs.length
  · refine List.prefix_of_prefix_length_le h htake ?_
    rw [Text.length_fold, List.length_take, String.length_toList]
    omega
  · rwa [List.take_of_length_le (by omega)]

/-- No text stands at the end of the input but the empty one. -/
theorem lt_size_of_hasFoldedAt {input : Input} {p : ℕ} {s : String} (hs : s.toList ≠ [])
    (h : input.hasFoldedAt p s = true) : p < input.size := by
  by_contra hp
  rw [hasFoldedAt_iff, List.drop_eq_nil_of_le (by simpa using hp)] at h
  exact hs (List.prefix_nil.mp h)

/-- The characters of the stretch of length `n` that starts at a place, or of what there is of it. -/
theorem toList_slice_min (input : Input) {p : ℕ} (n : ℕ) (hp : p ≤ input.size) :
    (input.slice p (min (p + n) input.size)).toList = (input.toList.drop p).take n := by
  have hplace : p ≤ min (p + n) input.size ∧ min (p + n) input.size ≤ input.size := by omega
  rw [slice, if_pos hplace, text, String.toList_ofList]
  rcases Nat.le_total (p + n) input.size with h | h
  · rw [Nat.min_eq_left h, toList_extract]
  · have hextract := toList_extract input p (input.size - p)
    rw [Nat.add_sub_cancel' hp] at hextract
    rw [Nat.min_eq_right h, hextract, List.take_of_length_le (by simp),
      List.take_of_length_le (by simp; omega)]

end PegMachine.Input
