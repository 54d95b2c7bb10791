import Mathlib
import PegMachine.Text.Escape

/-! Writing that can be told from whatever is written after it, so that a text is made of its parts in
one way only. -/
namespace PegMachine.Text

variable {α : Type} {p q : Char → Bool} {w : α → List Char} {c : Char} {r s : List Char}

/-- The text does not go on with such a character. -/
def Apart (p : Char → Bool) (r : List Char) : Prop := ∀ c ∈ r.head?, p c = false

@[simp] theorem apart_nil : Apart p [] := by
  rintro c ⟨⟩

@[simp] theorem apart_cons : Apart p (c :: r) ↔ p c = false := by
  simp [Apart]

/-- What is written can be told from what follows it, as long as that does not go on with a character
of `p`. -/
def Legible (p : Char → Bool) (w : α → List Char) : Prop :=
  ∀ ⦃a b r s⦄, Apart p r → Apart p s → w a ++ r = w b ++ s → a = b ∧ r = s

namespace Legible

/-- Words all of whose characters are in `p`: they go on as long as there are such characters. -/
theorem of_forall (hinj : Function.Injective w) (h : ∀ a, ∀ c ∈ w a, p c = true) : Legible p w := by
  intro a b r s hr hs heq
  have hstop : ∀ t, Apart p t → t.takeWhile p = [] := by
    intro t ht
    cases t with
    | nil => rfl
    | cons c t => simp [apart_cons.mp ht]
  have htake : ∀ a t, Apart p t → (w a ++ t).takeWhile p = w a := by
    intro a t ht
    rw [List.takeWhile_append_of_pos (h a), hstop t ht, List.append_nil]
  have hab : w a = w b := by rw [← htake a r hr, heq, htake b s hs]
  rw [hab] at heq
  exact ⟨hinj hab, List.append_cancel_left heq⟩

/-- A list of words, each of which begins with a character of `q`, until one comes that is not. -/
theorem flatMap (hw : Legible p w) (h : ∀ a, ∃ c t, w a = c :: t ∧ p c = false ∧ q c = true) :
    Legible (fun c => p c || q c) (List.flatMap w) := by
  have hnext : ∀ (as : List α) (r), Apart (fun c => p c || q c) r → Apart p (as.flatMap w ++ r) := by
    intro as r hr
    cases as with
    | nil => exact fun c hc => (Bool.or_eq_false_iff.mp (hr c hc)).1
    | cons a as =>
      obtain ⟨c, t, ha, hp, -⟩ := h a
      simp [List.flatMap_cons, ha, hp]
  have hends : ∀ a t r, Apart (fun c => p c || q c) r → r ≠ w a ++ t := by
    rintro a t r hr rfl
    obtain ⟨c, t', ha, -, hq⟩ := h a
    simp [ha, hq] at hr
  intro as
  induction as with
  | nil =>
    intro bs r s hr hs heq
    cases bs with
    | nil => exact ⟨rfl, heq⟩
    | cons b bs =>
      rw [List.flatMap_cons, List.append_assoc] at heq
      exact absurd heq (hends b _ r hr)
  | cons a as ih =>
    intro bs r s hr hs heq
    rw [List.flatMap_cons, List.append_assoc] at heq
    cases bs with
    | nil => exact absurd heq.symm (hends a _ s hs)
    | cons b bs =>
      rw [List.flatMap_cons, List.append_assoc] at heq
      obtain ⟨rfl, hrest⟩ := hw (hnext as r hr) (hnext bs s hs) heq
      obtain ⟨rfl, hrs⟩ := ih hr hs hrest
      exact ⟨rfl, hrs⟩

end Legible

theorem exists_digitChar_of_mem {b n : ℕ} (hb : 1 < b) (h : c ∈ Nat.toDigits b n) :
    ∃ m < b, c = m.digitChar := by
  induction n using Nat.strong_induction_on with
  | _ n ih =>
    rcases lt_or_ge n b with hn | hn
    · rw [Nat.toDigits_of_lt_base hn, List.mem_singleton] at h
      exact ⟨n, hn, h⟩
    · rw [Nat.toDigits_of_base_le hb hn, List.mem_append, List.mem_singleton] at h
      rcases h with h | h
      · exact ih (n / b) (Nat.div_lt_self (by omega) hb) h
      · exact ⟨n % b, Nat.mod_lt n (by omega), h⟩

/-- Digits up to the base sixteen tell their number. -/
theorem toDigits_injective {b : ℕ} (hb : 1 < b) (hb' : b ≤ 16) :
    Function.Injective (Nat.toDigits b) := by
  have hdigit : ∀ m < 16, ∀ n < 16, m.digitChar = n.digitChar → m = n := by decide
  have hshort : ∀ m n, m < b → b ≤ n → b.toDigits m ≠ b.toDigits n := by
    intro m n hm hn h
    rw [Nat.toDigits_of_lt_base hm, Nat.toDigits_of_base_le hb hn] at h
    have hlength := congrArg List.length h
    have hpos := @Nat.length_toDigits_pos b (n / b)
    rw [List.length_append, List.length_singleton, List.length_singleton] at hlength
    omega
  intro m
  induction m using Nat.strong_induction_on with
  | _ m ih =>
    intro n h
    rcases lt_or_ge m b with hm | hm <;> rcases lt_or_ge n b with hn | hn
    · rw [Nat.toDigits_of_lt_base hm, Nat.toDigits_of_lt_base hn] at h
      exact hdigit m (by omega) n (by omega) (List.cons.inj h).1
    · exact absurd h (hshort m n hm hn)
    · exact absurd h.symm (hshort n m hn hm)
    · rw [Nat.toDigits_of_base_le hb hm, Nat.toDigits_of_base_le hb hn] at h
      obtain ⟨hhigh, hlow⟩ := List.append_inj' h rfl
      have hdiv := ih (m / b) (Nat.div_lt_self (by omega) hb) hhigh
      have hm' := Nat.mod_lt m (show b > 0 by omega)
      have hn' := Nat.mod_lt n (show b > 0 by omega)
      have hmod := hdigit (m % b) (by omega) (n % b) (by omega) (List.cons.inj hlow).1
      rw [← Nat.div_add_mod m b, ← Nat.div_add_mod n b, hdiv, hmod]

theorem isDigit_of_mem {n : ℕ} (h : c ∈ (toString n).toList) : c.isDigit = true := by
  rw [Nat.toString_eq_repr, Nat.toList_repr] at h
  obtain ⟨m, hm, rfl⟩ := exists_digitChar_of_mem (by decide) h
  have hdigit : ∀ m < 10, m.digitChar.isDigit = true := by decide
  exact hdigit m hm

theorem toString_head (n : ℕ) : ∃ c t, (toString n).toList = c :: t ∧ c.isDigit = true := by
  obtain ⟨c, t, h⟩ := List.exists_cons_of_length_pos (@Nat.length_toDigits_pos 10 n)
  rw [← Nat.toList_repr, ← Nat.toString_eq_repr] at h
  exact ⟨c, t, h, isDigit_of_mem (by rw [h]; exact List.mem_cons_self)⟩

/-- A number in decimal goes on as long as there are digits. -/
theorem legible_toString : Legible Char.isDigit fun n : ℕ => (toString n).toList := by
  refine .of_forall ?_ fun n c => isDigit_of_mem
  intro m n h
  simp only [Nat.toString_eq_repr, Nat.toList_repr] at h
  exact toDigits_injective (by decide) (by decide) h

theorem legible_word : Legible Char.isDigit fun w : UInt32 => (toString w.toNat).toList := by
  intro v w r s hr hs h
  obtain ⟨hvw, hrs⟩ := legible_toString hr hs h
  exact ⟨UInt32.toNat_inj.mp hvw, hrs⟩

end PegMachine.Text
