import Mathlib
import PegMachine.Grammar.Expr

/-! Induction on expressions: what is shown of an expression may use what holds of its parts. -/
namespace PegMachine.Expr

@[elab_as_elim, induction_eliminator]
theorem induction {P : Expr → Prop}
    (named : ∀ name e, P e → P (.named name e))
    (choice : ∀ es, (∀ e ∈ es, P e) → P (.choice es))
    (action : ∀ e code, P e → P (.action e code))
    (sequence : ∀ es, (∀ e ∈ es, P e) → P (.sequence es))
    (labeled : ∀ label e, P e → P (.labeled label e))
    (text : ∀ e, P e → P (.text e))
    (followedBy : ∀ e, P e → P (.followedBy e))
    (notFollowedBy : ∀ e, P e → P (.notFollowedBy e))
    (guard : ∀ code, P (.guard code))
    (guardNot : ∀ code, P (.guardNot code))
    (optional : ∀ e, P e → P (.optional e))
    (zeroOrMore : ∀ e, P e → P (.zeroOrMore e))
    (oneOrMore : ∀ e, P e → P (.oneOrMore e))
    (bounded : ∀ e min max d, P e → (∀ d' ∈ d, P d') → P (.bounded e min max d))
    (rule : ∀ name, P (.rule name))
    (literal : ∀ value ignoreCase, P (.literal value ignoreCase))
    (charClass : ∀ members text, P (.charClass members text))
    (any : P .any) (e : Expr) : P e := by
  -- the parts are smaller, so what holds of all smaller expressions holds of them
  induction hn : sizeOf e using Nat.strong_induction_on generalizing e with
  | _ n ih =>
    subst hn
    cases e with
    | named name e => exact named name e (ih _ (by simp) e rfl)
    | choice es =>
      refine choice es fun e he => ih _ ?_ e rfl
      have := List.sizeOf_lt_of_mem he
      simp
      omega
    | action e code => exact action e code (ih _ (by simp; omega) e rfl)
    | sequence es =>
      refine sequence es fun e he => ih _ ?_ e rfl
      have := List.sizeOf_lt_of_mem he
      simp
      omega
    | labeled label e => exact labeled label e (ih _ (by simp) e rfl)
    | text e => exact text e (ih _ (by simp) e rfl)
    | followedBy e => exact followedBy e (ih _ (by simp) e rfl)
    | notFollowedBy e => exact notFollowedBy e (ih _ (by simp) e rfl)
    | guard code => exact guard code
    | guardNot code => exact guardNot code
    | optional e => exact optional e (ih _ (by simp) e rfl)
    | zeroOrMore e => exact zeroOrMore e (ih _ (by simp) e rfl)
    | oneOrMore e => exact oneOrMore e (ih _ (by simp) e rfl)
    | bounded e min max d =>
      refine bounded e min max d (ih _ (by simp; omega) e rfl) fun d' hd => ih _ ?_ d' rfl
      obtain rfl := Option.mem_def.mp hd
      simp
      omega
    | rule name => exact rule name
    | literal value ignoreCase => exact literal value ignoreCase
    | charClass members text => exact charClass members text
    | any => exact any

/-- Induction where all parts are treated alike. -/
theorem parts_induction {P : Expr → Prop} (part : ∀ e : Expr, (∀ d ∈ e.children, P d) → P e)
    (e : Expr) : P e := by
  induction e with
  | choice es ih | sequence es ih => exact part _ ih
  | bounded e min max d ih ihd =>
    refine part _ fun e' he => ?_
    rcases List.mem_cons.mp he with rfl | he
    · exact ih
    · exact ihd e' (by simpa using he)
  | named _ e ih | action e _ ih | labeled _ e ih | text e ih | followedBy e ih
  | notFollowedBy e ih | optional e ih | zeroOrMore e ih | oneOrMore e ih =>
    refine part _ fun d hd => ?_
    obtain rfl := List.mem_singleton.mp hd
    exact ih
  | guard | guardNot | rule | literal | charClass | any =>
    refine part _ fun d hd => ?_
    cases hd

/-- Induction where what holds of the parts of the parts may be used, too: an action reaches past the
sequence below it. -/
theorem inner_induction {P : Expr → Prop}
    (inner : ∀ e : Expr, (∀ d ∈ e.children, P d) → (∀ d ∈ e.children, ∀ d' ∈ d.children, P d') → P e)
    (e : Expr) : P e := by
  have h : P e ∧ ∀ d ∈ e.children, P d := by
    induction e using parts_induction with
    | part e ih =>
      have hp := fun d hd => (ih d hd).1
      exact ⟨inner e hp fun d hd => (ih d hd).2, hp⟩
  exact h.1

theorem preorderAll_eq_flatMap (es : List Expr) : preorderAll es = es.flatMap preorder := by
  induction es with
  | nil => rfl
  | cons e es ih => rw [preorderAll, ih, List.flatMap_cons]

/-- An expression comes before the preorders of its parts. -/
theorem preorder_eq (e : Expr) : e.preorder = e :: e.children.flatMap preorder := by
  cases e with
  | choice es | sequence es => rw [preorder, preorderAll_eq_flatMap, children]
  | bounded e min max d => cases d <;> simp [preorder, preorderOpt, children]
  | _ => simp [preorder, children]

theorem mem_preorder_self (e : Expr) : e ∈ e.preorder := by
  rw [preorder_eq]
  exact List.mem_cons_self

theorem preorder_subset {d e : Expr} (h : d ∈ e.children) : d.preorder ⊆ e.preorder := by
  intro d' hd
  rw [preorder_eq]
  exact List.mem_cons_of_mem _ (List.mem_flatMap_of_mem h hd)

/-- The number of nodes. -/
def size (e : Expr) : ℕ := e.preorder.length

theorem size_eq (e : Expr) : e.size = 1 + (e.children.map size).sum := by
  rw [size, preorder_eq, List.length_cons, List.length_flatMap, Nat.add_comm]
  rfl

theorem size_pos (e : Expr) : 0 < e.size := by
  rw [size_eq]
  omega

theorem size_lt {d e : Expr} (h : d ∈ e.children) : d.size < e.size := by
  have := List.le_sum_of_mem (List.mem_map_of_mem (f := size) h)
  rw [size_eq e]
  omega

theorem refs_eq (e : Expr) : e.refs = e.ref?.toList ++ e.children.flatMap refs := by
  unfold refs
  rw [preorder_eq, List.filterMap_cons, List.filterMap_flatMap]
  cases e.ref? <;> rfl

end PegMachine.Expr
