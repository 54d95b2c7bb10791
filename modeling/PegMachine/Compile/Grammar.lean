import PegMachine.Code.Program
import PegMachine.Compile.Expr
import PegMachine.Grammar.Check

/-! The program of a grammar. Rules are compiled in their order and share one pool. -/
namespace PegMachine

/-- Why a grammar has no program. -/
inductive BuildError where
  | grammar (e : GrammarError)
  | compile (e : CompileError)
  deriving DecidableEq, Repr

/-- The code of a rule, checked for its stack height if `verify` is set. -/
def Rule.compile (verify : Bool) (rules : String → Option Nat) (r : Rule) : Compile RuleCode := do
  let code ← r.body.compile rules .rule []
  if verify then
    match Code.checkRule code with
    | .error e => throw (.height r.name e)
    | .ok () => pure ⟨r.name, code⟩
  else pure ⟨r.name, code⟩

/-- The code of a list of rules. -/
def compileRules (verify : Bool) (rules : String → Option Nat) : List Rule → Compile (List RuleCode)
  | [] => pure []
  | r :: rs => do
    let c ← r.compile verify rules
    let cs ← compileRules verify rules rs
    pure (c :: cs)

namespace Grammar

/-- The program of a grammar as it is. -/
def generate (verify : Bool) (g : Grammar) : Except CompileError Program := do
  if UInt32.size < g.rules.length then throw (.operandOverflow "rule index" UInt32.size)
  let (rules, pool) ← (compileRules verify g.ruleIndex? g.rules).run {}
  pure ⟨rules, pool.consts⟩

/-- The program of a grammar that passes the checks. -/
def compile (verify : Bool) (g : Grammar) : Except BuildError Program :=
  match g.fault? with
  | some e => .error (.grammar e)
  | none =>
    match g.generate verify with
    | .error e => .error (.compile e)
    | .ok p => .ok p

end Grammar
end PegMachine
