import PegMachine.Grammar.CharClass

/-! Parsing expressions and the grammars built from them. -/
namespace PegMachine

/-- A parsing expression. -/
inductive Expr where
  /-- The operand, whose own expectations give way to `name` when it fails. -/
  | named (name : String) (operand : Expr)
  /-- The first alternative that matches. -/
  | choice (alternatives : List Expr)
  /-- The answer of `code` to the values that the operand binds. -/
  | action (operand : Expr) (code : String)
  /-- All elements in turn. -/
  | sequence (elements : List Expr)
  /-- The operand, its value bound to `label` for the action around it. -/
  | labeled (label : String) (operand : Expr)
  /-- The input that the operand matches, in place of its value. -/
  | text (operand : Expr)
  /-- Success without moving where the operand matches. -/
  | followedBy (operand : Expr)
  /-- Success without moving where the operand does not match. -/
  | notFollowedBy (operand : Expr)
  /-- Success where `code` answers with a true value. -/
  | guard (code : String)
  /-- Success where `code` answers with a false value. -/
  | guardNot (code : String)
  /-- The operand or nothing. -/
  | optional (operand : Expr)
  /-- The operand as often as it matches. -/
  | zeroOrMore (operand : Expr)
  /-- The operand at least once, and as often as it matches. -/
  | oneOrMore (operand : Expr)
  /-- The operand `min` to `max` times, with the delimiter between two matches. -/
  | bounded (operand : Expr) (min max : Option UInt32) (delimiter : Option Expr)
  /-- The rule of that name. -/
  | rule (name : String)
  /-- The characters of `value`. -/
  | literal (value : String) (ignoreCase : Bool)
  /-- One character of a class; `text` is how the grammar writes the class. -/
  | charClass (members : CharClass) (text : String)
  /-- Any one character. -/
  | any

/-- A rule: a name for an expression. -/
structure Rule where
  name : String
  body : Expr

/-- The rules of a grammar, in the order that numbers them. -/
structure Grammar where
  rules : List Rule

/-- The number of the first rule of that name. -/
def Grammar.ruleIndex? (g : Grammar) (name : String) : Option Nat :=
  g.rules.findIdx? (·.name == name)

namespace Expr

/-- The kind of the root, in words joined by underscores. -/
def kind : Expr → String
  | .named .. => "named"
  | .choice _ => "choice"
  | .action .. => "action"
  | .sequence _ => "sequence"
  | .labeled .. => "labeled"
  | .text _ => "text"
  | .followedBy _ => "simple_and"
  | .notFollowedBy _ => "simple_not"
  | .guard _ => "semantic_and"
  | .guardNot _ => "semantic_not"
  | .optional _ => "optional"
  | .zeroOrMore _ => "zero_or_more"
  | .oneOrMore _ => "one_or_more"
  | .bounded .. => "range"
  | .rule _ => "rule_ref"
  | .literal .. => "literal"
  | .charClass .. => "class"
  | .any => "any"

/-- The direct parts, in the order in which they are tried; a delimiter comes after its operand. -/
def children : Expr → List Expr
  | .choice es | .sequence es => es
  | .named _ e | .action e _ | .labeled _ e | .text e | .followedBy e | .notFollowedBy e
  | .optional e | .zeroOrMore e | .oneOrMore e => [e]
  | .bounded e _ _ d => e :: d.toList
  | .guard _ | .guardNot _ | .rule _ | .literal .. | .charClass .. | .any => []

/-- A class written in brackets from its members. -/
def ofClass (k : CharClass) : Expr := .charClass k k.render

mutual

/-- The expression and all those below it, each before its parts. -/
def preorder : Expr → List Expr
  | .named n e => .named n e :: e.preorder
  | .choice es => .choice es :: preorderAll es
  | .action e c => .action e c :: e.preorder
  | .sequence es => .sequence es :: preorderAll es
  | .labeled l e => .labeled l e :: e.preorder
  | .text e => .text e :: e.preorder
  | .followedBy e => .followedBy e :: e.preorder
  | .notFollowedBy e => .notFollowedBy e :: e.preorder
  | .optional e => .optional e :: e.preorder
  | .zeroOrMore e => .zeroOrMore e :: e.preorder
  | .oneOrMore e => .oneOrMore e :: e.preorder
  | .bounded e m n d => .bounded e m n d :: e.preorder ++ preorderOpt d
  | .guard c => [.guard c]
  | .guardNot c => [.guardNot c]
  | .rule n => [.rule n]
  | .literal v i => [.literal v i]
  | .charClass k t => [.charClass k t]
  | .any => [.any]

/-- The preorders of a list of expressions, one after the other. -/
def preorderAll : List Expr → List Expr
  | [] => []
  | e :: es => e.preorder ++ preorderAll es

/-- The preorder of a delimiter, if there is one. -/
def preorderOpt : Option Expr → List Expr
  | none => []
  | some e => e.preorder

end

/-- The rule that the root refers to. -/
def ref? : Expr → Option String
  | .rule n => some n
  | _ => none

/-- The names of the rules referred to, from left to right. -/
def refs (e : Expr) : List String := e.preorder.filterMap ref?

mutual

/-- The same expression with every class written from its members. -/
def respelled : Expr → Expr
  | .named n e => .named n e.respelled
  | .choice es => .choice (respelledAll es)
  | .action e c => .action e.respelled c
  | .sequence es => .sequence (respelledAll es)
  | .labeled l e => .labeled l e.respelled
  | .text e => .text e.respelled
  | .followedBy e => .followedBy e.respelled
  | .notFollowedBy e => .notFollowedBy e.respelled
  | .optional e => .optional e.respelled
  | .zeroOrMore e => .zeroOrMore e.respelled
  | .oneOrMore e => .oneOrMore e.respelled
  | .bounded e m n d => .bounded e.respelled m n (respelledOpt d)
  | .guard c => .guard c
  | .guardNot c => .guardNot c
  | .rule n => .rule n
  | .literal v i => .literal v i
  | .charClass k _ => ofClass k
  | .any => .any

/-- Every expression of a list with its classes written from their members. -/
def respelledAll : List Expr → List Expr
  | [] => []
  | e :: es => e.respelled :: respelledAll es

/-- A delimiter with its classes written from their members. -/
def respelledOpt : Option Expr → Option Expr
  | none => none
  | some e => some e.respelled

end

end Expr
end PegMachine
