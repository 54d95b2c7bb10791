import PegMachine.Grammar.Expr

/-! What a grammar must satisfy before it is compiled: every reference names a rule, and no two
rules share a name. -/
namespace PegMachine

/-- Why a grammar is refused. -/
inductive GrammarError where
  /-- A reference to a rule that is not there. -/
  | missingRule (name : String)
  /-- A rule whose name the rule numbered `first` has already. -/
  | duplicateRule (name : String) (first : Nat)
  deriving DecidableEq, Repr

/-- The error in words. -/
def GrammarError.message : GrammarError → String
  | .missingRule name => "Referenced rule \"" ++ name ++ "\" does not exist."
  | .duplicateRule name _ => "Rule \"" ++ name ++ "\" is already defined."

/-- The first name of the list that occurs before it, in `seen` or in the list, with its first
place. -/
def firstRepeated (seen : List String) : List String → Option (String × Nat)
  | [] => none
  | n :: ns =>
    match seen.idxOf? n with
    | some i => some (n, i)
    | none => firstRepeated (seen ++ [n]) ns

namespace Grammar

/-- All references, rule by rule. -/
def refs (g : Grammar) : List String := g.rules.flatMap (·.body.refs)

/-- The first reference that no rule answers, as an error. -/
def missingRule? (g : Grammar) : Option GrammarError :=
  (g.refs.find? fun n => (g.ruleIndex? n).isNone).map .missingRule

/-- The first rule whose name is taken, as an error. -/
def duplicateRule? (g : Grammar) : Option GrammarError :=
  (firstRepeated [] (g.rules.map (·.name))).map fun r => .duplicateRule r.1 r.2

/-- The first reason to refuse the grammar. A missing rule comes before a duplicate one. -/
def fault? (g : Grammar) : Option GrammarError := g.missingRule? <|> g.duplicateRule?

end Grammar
end PegMachine
