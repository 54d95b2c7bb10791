import PegMachine.Grammar.Expr

/-! Labels: the names under which an action knows the values of the elements before it. -/
namespace PegMachine

/-- Labels and what they stand for, in the order in which they were first bound. -/
abbrev Labels (α : Type) := List (String × α)

namespace Labels

variable {α : Type}

/-- Binds a label. One that is bound already keeps its place. -/
def set (label : String) (a : α) : Labels α → Labels α
  | [] => [(label, a)]
  | b :: bs => if b.1 = label then (label, a) :: bs else b :: set label a bs

def names (ls : Labels α) : List String := ls.map (·.1)

def values (ls : Labels α) : List α := ls.map (·.2)

end Labels

/-- The labels after an expression whose value `a` stands for: a labeled expression binds its label,
and a named one what its operand binds. -/
def Expr.bind {α : Type} (a : α) : Expr → Labels α → Labels α
  | .labeled l _, ls => ls.set l a
  | .named _ e, ls => e.bind a ls
  | _, ls => ls

end PegMachine
