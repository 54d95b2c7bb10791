import Mathlib
import PegMachine.Text.Lower
import PegMachine.Text.Upper

/-! Lower and upper case of single characters. A second lowering changes nothing, nor does a second
raising: no image under the one or the other is mapped again, as the tables show. -/
namespace PegMachine.Text

variable {c d : Char}

namespace CaseSpan

variable {s t : CaseSpan} {ts us : List CaseSpan}

/-- Where the span moves the character numbered `n`. -/
def image (s : CaseSpan) (n : ℕ) : ℕ := (n + s.shift).toNat

/-- The images are characters. -/
def lands (s : CaseSpan) : Bool :=
  0 ≤ s.first + s.shift && (s.image s.last < 0xD800 ||
    0xDFFF < s.image s.first && s.image s.last < 0x110000)

/-- The characters of the span are all odd or all even. -/
def byTwos (s : CaseSpan) : Bool := s.stride == 2 || s.first == s.last

/-- No image under `s` is mapped by `t`: they lie apart, or both go by twos and pass each other. -/
def misses (s t : CaseSpan) : Bool :=
  Nat.blt (s.image s.last) t.first || Nat.blt t.last (s.image s.first) ||
    s.byTwos && t.byTwos && (s.image s.first + t.first) % 2 == 1

/-- No image under the spans of `ts` is mapped by one of `us`. -/
def settles (ts us : List CaseSpan) : Bool := ts.all fun s => s.lands && us.all s.misses

theorem has_iff : s.has c = true ↔
    s.first ≤ c.toNat ∧ c.toNat ≤ s.last ∧ (c.toNat - s.first) % s.stride = 0 := by
  simp [has, and_assoc]

theorem even_of_byTwos (h : s.byTwos = true) (hc : s.has c = true) :
    (c.toNat - s.first) % 2 = 0 := by
  obtain ⟨hfirst, hlast, hstep⟩ := has_iff.mp hc
  simp only [byTwos, Bool.or_eq_true, beq_iff_eq] at h
  rcases h with htwo | hone
  · rwa [htwo] at hstep
  · omega

/-- A span moves all its characters alike. -/
theorem toNat_image (hs : s.lands = true) (hc : s.has c = true) :
    (Char.ofNat (s.image c.toNat)).toNat = s.image c.toNat ∧
      s.image c.toNat + s.first = s.image s.first + c.toNat ∧
      s.image c.toNat + s.last = s.image s.last + c.toNat := by
  obtain ⟨hfirst, hlast, -⟩ := has_iff.mp hc
  simp only [lands, Bool.and_eq_true, Bool.or_eq_true, decide_eq_true_eq] at hs
  obtain ⟨hpos, hrange⟩ := hs
  unfold image at hrange ⊢
  have hvalid : ((c.toNat : ℤ) + s.shift).toNat.isValidChar := by
    unfold Nat.isValidChar
    omega
  rw [Char.toNat_ofNat, if_pos hvalid]
  omega

theorem has_image_eq_false (h : s.misses t = true) (hs : s.lands = true) (hc : s.has c = true) :
    t.has (Char.ofNat (s.image c.toNat)) = false := by
  rw [← Bool.not_eq_true]
  intro ht
  obtain ⟨himage, hlo, hhi⟩ := toNat_image hs hc
  obtain ⟨hfirst, hlast, -⟩ := has_iff.mp hc
  obtain ⟨hfirst', hlast', -⟩ := has_iff.mp ht
  simp only [misses, Nat.blt_eq, Bool.or_eq_true, Bool.and_eq_true, beq_iff_eq] at h
  rcases h with (hbelow | habove) | ⟨⟨hs₂, ht₂⟩, hodd⟩
  · omega
  · omega
  · have heven := even_of_byTwos hs₂ hc
    have heven' := even_of_byTwos ht₂ ht
    omega

/-- A character is left as it is, or moved by the span that maps it. -/
theorem apply_cases (ts : List CaseSpan) (c : Char) :
    (apply ts c = c ∧ ∀ s ∈ ts, s.has c = false) ∨
      ∃ s ∈ ts, s.has c = true ∧ apply ts c = Char.ofNat (s.image c.toNat) := by
  unfold apply
  split
  · next s hs =>
    have hc := List.find?_some hs
    exact .inr ⟨s, List.mem_of_find?_eq_some hs, hc, rfl⟩
  · next hs => exact .inl ⟨rfl, by simpa using List.find?_eq_none.mp hs⟩

theorem apply_eq_self (h : ∀ s ∈ ts, s.has c = false) : apply ts c = c := by
  rcases apply_cases ts c with ⟨h', -⟩ | ⟨s, hs, hc, -⟩
  · exact h'
  · rw [h s hs] at hc
    cases hc

theorem has_apply_eq_false (h : settles ts us = true) :
    apply ts c = c ∨ ∀ t ∈ us, t.has (apply ts c) = false := by
  rcases apply_cases ts c with ⟨hc, -⟩ | ⟨s, hs, hc, heq⟩
  · exact .inl hc
  · simp only [settles, List.all_eq_true, Bool.and_eq_true] at h
    obtain ⟨hlands, hmisses⟩ := h s hs
    rw [heq]
    exact .inr fun t ht => has_image_eq_false (hmisses t ht) hlands hc

/-- The span of one character. -/
def only (n : ℕ) : CaseSpan := ⟨n, n, 1, 0⟩

theorem only_has : (only c.toNat).has c = true := by
  simp [only, has]

end CaseSpan

open CaseSpan

/-- No lower case has a lower case of its own, nor is it a dotted capital I. -/
theorem lowerSpans_settle : settles lowerSpans (only 'İ'.toNat :: lowerSpans) = true := by
  decide +kernel

/-- No upper case has an upper case of its own, be it one character or more. -/
theorem upperSpans_settle :
    settles upperSpans (upperExpansions.map (only ·.1) ++ upperSpans) = true := by
  decide +kernel

theorem lowerChar_eq_singleton (h : lowerChar c = [d]) : d = apply lowerSpans c := by
  unfold lowerChar at h
  split at h
  · cases h
  · exact (List.cons.inj h).1.symm

theorem lowerChar_lowerChar (h : lowerChar c = [d]) : lowerChar d = [d] := by
  obtain rfl := lowerChar_eq_singleton h
  rcases has_apply_eq_false (c := c) lowerSpans_settle with heq | hout
  · rwa [heq] at h ⊢
  · obtain ⟨hdotted, hspans⟩ := List.forall_mem_cons.mp hout
    have hne : apply lowerSpans c ≠ 'İ' := by
      intro heq
      rw [heq, only_has] at hdotted
      cases hdotted
    rw [lowerChar, if_neg hne, apply_eq_self hspans]

theorem upperChar_eq_singleton (h : upperChar c = [d]) : d = apply upperSpans c := by
  unfold upperChar at h
  split at h
  · next ns hns =>
    have hlong : ∀ e ∈ upperExpansions, e.2.length ≠ 1 := by decide +kernel
    obtain ⟨as, bs, heq, -⟩ := List.lookup_eq_some_iff.mp hns
    have hlength := congrArg List.length h
    rw [List.length_map, List.length_singleton] at hlength
    exact absurd hlength (hlong (c.toNat, ns) (by simp [heq]))
  · exact (List.cons.inj h).1.symm

theorem upperChar_upperChar (h : upperChar c = [d]) : upperChar d = [d] := by
  obtain rfl := upperChar_eq_singleton h
  rcases has_apply_eq_false (c := c) upperSpans_settle with heq | hout
  · rwa [heq] at h ⊢
  · obtain ⟨hlong, hspans⟩ := List.forall_mem_append.mp hout
    have hnone : upperExpansions.lookup (apply upperSpans c).toNat = none := by
      rw [List.lookup_eq_none_iff]
      intro e he
      rw [bne_iff_ne]
      intro heq
      have hfalse := hlong _ (List.mem_map_of_mem he)
      rw [← heq, only_has] at hfalse
      cases hfalse
    rw [upperChar, hnone, apply_eq_self hspans]

/-- The character `d` is the lower case of `c` or its upper case. -/
def Recases (c d : Char) : Prop := lowerChar c = [d] ∨ upperChar c = [d]

instance : Decidable (Recases c d) := inferInstanceAs (Decidable (_ ∨ _))

/-- The characters of a longer upper case do not come from the character they stand for. -/
theorem expansions_apart :
    ∀ e ∈ upperExpansions, ∀ n ∈ e.2, ¬Recases (Char.ofNat n) (Char.ofNat e.1) := by
  decide +kernel

/-- Nor do those of the lower case of a dotted capital I. -/
theorem dotted_apart : ¬Recases 'i' 'İ' ∧ ¬Recases '\u0307' 'İ' := by
  decide +kernel

/-- Of a character and a case of it, the one is a case of the other as soon as it occurs in one. -/
theorem Recases.of_mem (h : Recases c d) (hmem : c ∈ lowerChar d ∨ c ∈ upperChar d) :
    Recases d c := by
  rcases hmem with hlower | hupper
  · unfold lowerChar at hlower
    split at hlower
    · next hdotted =>
      subst hdotted
      rcases List.mem_pair.mp hlower with rfl | rfl
      · exact absurd h dotted_apart.1
      · exact absurd h dotted_apart.2
    · next hne =>
      left
      rw [lowerChar, if_neg hne, List.mem_singleton.mp hlower]
  · unfold upperChar at hupper
    split at hupper
    · next ns hns =>
      obtain ⟨as, bs, heq, -⟩ := List.lookup_eq_some_iff.mp hns
      obtain ⟨n, hn, rfl⟩ := List.mem_map.mp hupper
      have hapart := expansions_apart (d.toNat, ns) (by simp [heq]) n hn
      rw [Char.ofNat_toNat] at hapart
      exact absurd h hapart
    · next hnone =>
      right
      rw [upperChar, hnone, List.mem_singleton.mp hupper]

end PegMachine.Text
