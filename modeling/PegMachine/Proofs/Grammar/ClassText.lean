import PegMachine.Grammar.CharClass
import PegMachine.Proofs.Text.Legible

/-! Classes as they are written. The members of a class and its flags can be read off its text in one
way only, so that two classes never share a text. -/
namespace PegMachine

open Text

variable {c d : Char} {r s : List Char}

namespace ClassPart

/-- The character that a letter after a backslash stands for. -/
def meant : Char → Char
  | 't' => '\t'
  | 'r' => '\r'
  | 'n' => '\n'
  | e => e

/-- A character is written as it is, by a letter after a backslash, or by its code point. -/
theorem spell_cases (c : Char) :
    (written.spell c = [c] ∧ c ∉ ['\\', ']', '^', '-']) ∨
      (∃ e, written.spell c = ['\\', e] ∧ e ≠ 'u' ∧ meant e = c) ∨ written.spell c = hexEscape c := by
  unfold written.spell
  split
  · next h => exact .inr (.inl ⟨c, rfl, by rcases h with rfl | rfl | rfl | rfl <;> decide⟩)
  · next h =>
    fun_cases asciiEscape c
    · exact .inr (.inl ⟨'t', rfl, by decide, rfl⟩)
    · exact .inr (.inl ⟨'r', rfl, by decide, rfl⟩)
    · exact .inr (.inl ⟨'n', rfl, by decide, rfl⟩)
    · exact .inr (.inl ⟨'\x27', rfl, by decide, rfl⟩)
    · exact .inr (.inl ⟨'\x22', rfl, by decide, rfl⟩)
    · exact .inr (.inl ⟨'\\', rfl, by decide, rfl⟩)
    · exact .inl ⟨rfl, by simpa using h⟩
    · exact .inr (.inr rfl)

/-- No character is written with one that has a meaning of its own between brackets, but after a
backslash. -/
theorem spell_head (c : Char) : ∃ d t, written.spell c = d :: t ∧ d ∉ [']', '^', '-'] := by
  rcases spell_cases c with ⟨h, hc⟩ | ⟨e, h, -, -⟩ | h
  · exact ⟨c, [], h, fun hmem => hc (List.mem_cons_of_mem _ hmem)⟩
  · exact ⟨'\\', [e], h, by decide⟩
  · exact ⟨'\\', _, h, by decide⟩

theorem hexEscape_inj (h : hexEscape c ++ r = hexEscape d ++ s) : c = d ∧ r = s := by
  have hbrace : ∀ n : ℕ, ∀ x ∈ Nat.toDigits 16 n, (x != '\x7d') = true := by
    intro n x hx
    obtain ⟨m, hm, rfl⟩ := exists_digitChar_of_mem (by decide) hx
    have hall : ∀ m < 16, (m.digitChar != '\x7d') = true := by decide
    exact hall m hm
  have hdigits : Legible (· != '\x7d') (Nat.toDigits 16) :=
    .of_forall (toDigits_injective (by decide) (by decide)) hbrace
  simp only [hexEscape, List.append_assoc] at h
  obtain ⟨hn, hrest⟩ := hdigits (by simp) (by simp) (List.append_cancel_left h)
  exact ⟨Char.toNat_inj.mp hn, (List.cons.inj hrest).2⟩

theorem legible_spell : Legible (fun _ => false) written.spell := by
  intro c d r s _ _ h
  rcases spell_cases c with ⟨hc, hplain⟩ | ⟨e, hc, he, rfl⟩ | hc <;>
    rcases spell_cases d with ⟨hd, hplain'⟩ | ⟨e', hd, he', rfl⟩ | hd <;> rw [hc, hd] at h
  · exact List.cons.inj h
  · exact absurd (List.cons.inj h).1 (by rintro rfl; simp at hplain)
  · exact absurd (List.cons.inj h).1 (by rintro rfl; simp at hplain)
  · exact absurd (List.cons.inj h).1 (by rintro rfl; simp at hplain')
  · obtain ⟨rfl, rfl⟩ : e = e' ∧ r = s := by simpa using h
    exact ⟨rfl, rfl⟩
  · exact absurd (List.cons.inj (List.cons.inj h).2).1 he
  · exact absurd (List.cons.inj h).1 (by rintro rfl; simp at hplain')
  · exact absurd (List.cons.inj (List.cons.inj h).2).1.symm he'
  · exact hexEscape_inj h

/-- A single character goes on to be a range with a hyphen only. -/
theorem legible_written : Legible (· == '-') written := by
  have hspell : ∀ {c d : Char} {r s : List Char}, written.spell c ++ r = written.spell d ++ s →
      c = d ∧ r = s := fun h => legible_spell (fun _ _ => rfl) (fun _ _ => rfl) h
  intro a b r s hr hs h
  cases a with
  | char c =>
    cases b with
    | char d =>
      obtain ⟨rfl, hrs⟩ := hspell h
      exact ⟨rfl, hrs⟩
    | range lo hi =>
      rw [written, written, List.append_assoc] at h
      obtain ⟨-, rfl⟩ := hspell h
      simp at hr
  | range lo hi =>
    rw [written, List.append_assoc] at h
    cases b with
    | char d =>
      obtain ⟨-, rfl⟩ := hspell h
      simp at hs
    | range lo' hi' =>
      rw [written, List.append_assoc] at h
      obtain ⟨rfl, hhigh⟩ := hspell h
      obtain ⟨rfl, hrs⟩ := hspell (List.cons.inj hhigh).2
      exact ⟨rfl, hrs⟩

theorem written_head (a : ClassPart) : ∃ d t, a.written = d :: t ∧ d ∉ [']', '^', '-'] := by
  cases a with
  | char c => exact spell_head c
  | range lo hi =>
    obtain ⟨d, t, h, hd⟩ := spell_head lo
    exact ⟨d, t ++ '-' :: written.spell hi, by rw [written, h, List.cons_append], hd⟩

/-- The members of a class end at the bracket. -/
theorem members_inj {as bs : List ClassPart}
    (h : as.flatMap written ++ ']' :: r = bs.flatMap written ++ ']' :: s) : as = bs ∧ r = s := by
  have hhead : ∀ a : ClassPart, ∃ c t, a.written = c :: t ∧ (c == '-') = false ∧ (c != ']') = true := by
    intro a
    obtain ⟨c, t, ha, hc⟩ := a.written_head
    exact ⟨c, t, ha, by simp_all⟩
  obtain ⟨has, hrs⟩ := legible_written.flatMap hhead (by simp) (by simp) h
  exact ⟨has, (List.cons.inj hrs).2⟩

end ClassPart

namespace CharClass

/-- The bracket that opens a class is followed by a caret just where the class is inverted. -/
theorem not_caret (as : List ClassPart) (r : List Char) :
    ∀ t, as.flatMap ClassPart.written ++ ']' :: r ≠ '^' :: t := by
  intro t h
  cases as with
  | nil => exact absurd (List.cons.inj h).1 (by decide)
  | cons a as =>
    obtain ⟨d, t', ha, hd⟩ := a.written_head
    rw [List.flatMap_cons, ha] at h
    obtain ⟨rfl, -⟩ := List.cons.inj h
    simp at hd

theorem render_injective : Function.Injective render := by
  rintro ⟨as, inverted, ignoreCase⟩ ⟨bs, inverted', ignoreCase'⟩ h
  have hchars := String.ofList_injective h
  simp only [List.cons_append, List.append_assoc] at hchars
  have hbody := (List.cons.inj hchars).2
  have hinverted : inverted = inverted' := by
    cases inverted <;> cases inverted' <;> try rfl
    · exact absurd hbody (not_caret _ _ _)
    · exact absurd hbody.symm (not_caret _ _ _)
  subst hinverted
  obtain ⟨rfl, hflag⟩ := ClassPart.members_inj (List.append_cancel_left hbody)
  cases ignoreCase <;> cases ignoreCase' <;> simp_all

end CharClass
end PegMachine
