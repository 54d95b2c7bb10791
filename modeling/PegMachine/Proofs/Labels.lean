import PegMachine.Labels
import PegMachine.Proofs.Grammar.Induction

/-! What holds of all labels in scope holds after one more is bound. -/
namespace PegMachine

variable {α β : Type} {P : String × α → Prop} {R : α → β → Prop} {a : α} {b : β} {label : String}
  {as : Labels α} {bs : Labels β}

theorem Labels.forall_set (h : ∀ x ∈ as, P x) (ha : P (label, a)) : ∀ x ∈ as.set label a, P x := by
  induction as with
  | nil =>
    intro x hx
    obtain rfl := List.mem_singleton.mp hx
    exact ha
  | cons y as ih =>
    rw [List.forall_mem_cons] at h
    rw [set]
    split
    · exact List.forall_mem_cons.mpr ⟨ha, h.2⟩
    · exact List.forall_mem_cons.mpr ⟨h.1, ih h.2⟩

theorem Expr.forall_bind (e : Expr) (h : ∀ x ∈ as, P x) (ha : ∀ l, P (l, a)) :
    ∀ x ∈ e.bind a as, P x := by
  induction e with
  | labeled label e => exact Labels.forall_set h (ha label)
  | named name e ih => exact ih
  | _ => exact h

theorem Labels.names_set : (as.set label a).names =
    if label ∈ as.names then as.names else as.names ++ [label] := by
  induction as with
  | nil => rfl
  | cons x as ih =>
    rw [set]
    by_cases h : x.1 = label
    · simp [names, h]
    · rw [if_neg h]
      simp only [names, List.map_cons, List.mem_cons, Ne.symm h, false_or] at ih ⊢
      rw [ih]
      split <;> simp [*]

/-- The labels in scope are all different. -/
theorem Expr.nodup_bind (e : Expr) (h : as.names.Nodup) : (e.bind a as).names.Nodup := by
  induction e with
  | labeled label e =>
    rw [Expr.bind, Labels.names_set]
    split
    · exact h
    · next hl => exact List.nodup_append.mpr ⟨h, List.nodup_singleton label, by grind⟩
  | named name e ih => exact ih
  | _ => exact h

/-- The same labels, and what they stand for is related by `R`. -/
def Labels.Related (R : α → β → Prop) : Labels α → Labels β → Prop :=
  List.Forall₂ fun x y => x.1 = y.1 ∧ R x.2 y.2

theorem Labels.Related.set (h : as.Related R bs) (hab : R a b) (label : String) :
    (as.set label a).Related R (bs.set label b) := by
  induction h with
  | nil => exact .cons ⟨rfl, hab⟩ .nil
  | @cons x y as bs hxy h ih =>
    rw [Labels.set, Labels.set, hxy.1]
    split
    · exact .cons ⟨rfl, hab⟩ h
    · exact .cons hxy ih

theorem Labels.Related.bind (h : as.Related R bs) (hab : R a b) (e : Expr) :
    (e.bind a as).Related R (e.bind b bs) := by
  induction e with
  | labeled label e => exact h.set hab label
  | named name e ih => exact ih
  | _ => exact h

theorem Labels.Related.names_eq (h : as.Related R bs) : as.names = bs.names := by
  induction h with
  | nil => rfl
  | cons hxy _ ih => exact congrArg₂ List.cons hxy.1 ih

end PegMachine
