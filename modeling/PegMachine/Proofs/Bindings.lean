import PegMachine.Proofs.Labels
import PegMachine.Value

/-! What the elements of a sequence bind. The parameters of a call are the labels that are bound, in
the order in which they come first, and each stands for the value that was bound to it last. -/
namespace PegMachine

/-- The label that an expression binds, if it binds one. A name around it is no matter. -/
def Expr.label? : Expr → Option String
  | .labeled l _ => some l
  | .named _ e => e.label?
  | _ => none

/-- The labels of elements, if they have any, with the values of these elements. -/
abbrev Bindings := List (Option String × Value)

namespace Bindings

/-- The labels that are bound, each once, in the order in which they come first. -/
def params (bs : Bindings) : List String := (bs.filterMap Prod.fst).eraseDups

/-- The value that a label was bound to last. -/
def last (bs : Bindings) (l : String) : Value := (bs.reverse.lookup (some l)).getD .undefined

/-- The values that the parameters stand for. -/
def args (bs : Bindings) : List Value := bs.params.map bs.last

/-- The parameters and what they stand for. -/
def labels (bs : Bindings) : Labels Value := bs.params.map fun l => (l, bs.last l)

variable {bs : Bindings} {l l' : String} {v : Value}

theorem names_labels : bs.labels.names = bs.params := by
  rw [Labels.names, labels, List.map_map]
  exact List.map_id _

theorem values_labels : bs.labels.values = bs.args := by
  rw [Labels.values, labels, List.map_map]
  rfl

theorem params_none : params (bs ++ [(none, v)]) = bs.params := by
  simp [params]

theorem last_none : last (bs ++ [(none, v)]) l = bs.last l := by
  simp [last, List.lookup_cons]

theorem params_some :
    params (bs ++ [(some l, v)]) = if l ∈ bs.params then bs.params else bs.params ++ [l] := by
  have hmem : l ∈ bs.params ↔ l ∈ bs.filterMap Prod.fst := List.mem_eraseDups
  have happend : params (bs ++ [(some l, v)]) =
      bs.params ++ (List.removeAll [l] (bs.filterMap Prod.fst)).eraseDups := by
    rw [params, List.filterMap_append, List.eraseDups_append]
    rfl
  by_cases h : l ∈ bs.params
  · have hl := hmem.mp h
    rw [happend, if_pos h]
    simp [List.removeAll, hl]
  · have hl := mt hmem.mpr h
    rw [happend, if_neg h]
    simp [List.removeAll, hl, List.eraseDups_cons]

theorem last_some : last (bs ++ [(some l, v)]) l' = if l' = l then v else bs.last l' := by
  by_cases h : l' = l
  · simp [last, h]
  · have hne : (l' == l) = false := by simpa using h
    simp [last, List.lookup_cons, h, hne]

theorem nodup_params (bs : Bindings) : bs.params.Nodup := by
  induction bs using List.reverseRecOn with
  | nil => exact List.nodup_nil
  | append_singleton bs b ih =>
    obtain ⟨_ | l, v⟩ := b
    · rw [params_none]
      exact ih
    · rw [params_some]
      split
      · exact ih
      · next hl => exact List.nodup_append.mpr ⟨ih, List.nodup_singleton l, by grind⟩

end Bindings

/-- Binding a label among labels that are all different. -/
theorem Labels.set_map {α : Type} {ns : List String} (hn : ns.Nodup) (f : String → α) (l : String)
    (a : α) : Labels.set l a (ns.map fun n => (n, f n)) =
      (if l ∈ ns then ns else ns ++ [l]).map fun n => (n, if n = l then a else f n) := by
  induction ns with
  | nil => simp [set]
  | cons n ns ih =>
    obtain ⟨hnot, hn⟩ := List.nodup_cons.mp hn
    have hrest := ih hn
    rw [List.map_cons, set]
    by_cases h : n = l
    · subst h
      have hsame : ∀ x ∈ ns, x ≠ n := by
        rintro x hx rfl
        exact hnot hx
      simp only [if_pos, List.mem_cons_self, List.map_cons]
      congr 1
      refine List.map_congr_left fun x hx => ?_
      rw [if_neg (hsame x hx)]
    · have hmem : l ∈ n :: ns ↔ l ∈ ns := by simp [Ne.symm h]
      rw [if_neg h, hrest]
      simp only [hmem]
      split <;> simp [h]

/-- What an expression with value `v` binds is one more binding. -/
theorem Expr.bind_labels (e : Expr) (v : Value) (bs : Bindings) :
    e.bind v bs.labels = Bindings.labels (bs ++ [(e.label?, v)]) := by
  induction e with
  | labeled l e =>
    rw [Expr.bind, Bindings.labels, Labels.set_map bs.nodup_params]
    rw [Expr.label?, Bindings.labels, Bindings.params_some]
    refine List.map_congr_left fun n _ => ?_
    rw [Bindings.last_some]
  | named name e ih => exact ih
  | _ =>
    rw [Expr.bind, Expr.label?, Bindings.labels, Bindings.labels, Bindings.params_none]
    · refine List.map_congr_left fun n _ => ?_
      rw [Bindings.last_none]
    all_goals simp

end PegMachine
