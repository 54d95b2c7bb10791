import PegMachine.Proofs.Semantics.Backtrack

/-! Nullable expressions: those that may match and stay where they are, as far as their form tells. A
grammar is guarded if it repeats none of them without an upper bound. -/
namespace PegMachine.Grammar

/-- The least relation by which an expression is nullable. -/
inductive Nullable (g : Grammar) : Expr → Prop
  | literal (ignoreCase : Bool) : Nullable g (.literal "" ignoreCase)
  | followedBy (e : Expr) : Nullable g (.followedBy e)
  | notFollowedBy (e : Expr) : Nullable g (.notFollowedBy e)
  | guard (code : String) : Nullable g (.guard code)
  | guardNot (code : String) : Nullable g (.guardNot code)
  | optional (e : Expr) : Nullable g (.optional e)
  | zeroOrMore (e : Expr) : Nullable g (.zeroOrMore e)
  | named {name : String} {e : Expr} (h : Nullable g e) : Nullable g (.named name e)
  | labeled {label : String} {e : Expr} (h : Nullable g e) : Nullable g (.labeled label e)
  | text {e : Expr} (h : Nullable g e) : Nullable g (.text e)
  | action {e : Expr} {code : String} (h : Nullable g e) : Nullable g (.action e code)
  | oneOrMore {e : Expr} (h : Nullable g e) : Nullable g (.oneOrMore e)
  | choice {es : List Expr} {e : Expr} (he : e ∈ es) (h : Nullable g e) : Nullable g (.choice es)
  | sequence {es : List Expr} (h : ∀ e ∈ es, Nullable g e) : Nullable g (.sequence es)
  /-- No match is asked for. -/
  | free {e : Expr} {min max : Option UInt32} {d : Option Expr} (h : ∀ n ∈ min, n = 0) :
    Nullable g (.bounded e min max d)
  | bounded {e : Expr} {min max : Option UInt32} {d : Option Expr} (h : Nullable g e) :
    Nullable g (.bounded e min max d)
  | rule {name : String} {i : ℕ} {r : Rule} (hi : g.ruleIndex? name = some i)
    (hr : g.rules[i]? = some r) (h : Nullable g r.body) : Nullable g (.rule name)

/-- Nothing nullable is repeated without an upper bound, in the expression or below it. -/
def Guards (g : Grammar) (e : Expr) : Prop :=
  ∀ d ∈ e.preorder, ∀ r, d.repetition? = some r → r.most = none → ¬g.Nullable r.operand

/-- All rules of the grammar are so. -/
def Guarded (g : Grammar) : Prop := ∀ r ∈ g.rules, g.Guards r.body

variable {g : Grammar} {e : Expr} {r : Repetition}

/-- A repetition may stay where it is if it asks for no match, or if its operand may. -/
theorem Nullable.repetition (hr : e.repetition? = some r)
    (h : r.least = 0 ∨ g.Nullable r.operand) : g.Nullable e := by
  cases e with
  | zeroOrMore e => exact .zeroOrMore e
  | oneOrMore e =>
    obtain rfl := Option.some.inj hr
    rcases h with h | h
    · cases h
    · exact .oneOrMore h
  | bounded e min max d =>
    obtain rfl := Option.some.inj hr
    rcases h with h | h
    · apply Nullable.free
      rintro n hn
      obtain rfl := Option.mem_def.mp hn
      exact UInt32.toNat_inj.mp h
    · exact .bounded h
  | _ => cases hr

theorem Guards.self (h : g.Guards e) (hr : e.repetition? = some r) (hm : r.most = none) :
    ¬g.Nullable r.operand :=
  h e e.mem_preorder_self r hr hm

theorem Guards.part (h : g.Guards e) {d : Expr} (hd : d ∈ e.children) : g.Guards d :=
  fun d' hd' => h d' (Expr.preorder_subset hd hd')

/-- A grammar without repetitions is guarded. -/
theorem guarded_of_all (h : g.rules.all fun r => r.body.preorder.all (·.repetition?.isNone)) :
    g.Guarded := by
  intro r hr d hd rep hrep
  have hnone := List.all_eq_true.mp (List.all_eq_true.mp h r hr) d hd
  rw [hrep] at hnone
  cases hnone

end PegMachine.Grammar
