import PegMachine.Compile.Pool

/-! The code of an expression. Run on any stack, it leaves the stack with one value more: the value
of the expression, or the mark of failure. -/
namespace PegMachine

/-- Compilation: the constants gather in a pool. -/
abbrev Compile := StateT Pool (Except CompileError)

namespace Compile

/-- The number of a constant. -/
def intern (c : Constant) : Compile UInt32 := fun p => p.intern c

/-- The number of `code` as a function of the labels in scope. -/
def function (s : Scope) (code : String) : Compile UInt32 := intern (.function ⟨s.names, code⟩)

/-- A test and its two bodies. -/
def branch (t : Test) (yes no : Code) : Compile Code := Code.branch t.words yes no

/-- A loop that runs its body until the top value is the mark of failure. -/
def loop (body : Code) : Compile Code := Code.loop (Code.op .whileMatched) body

/-- The rest of a repetition: append the value on top and run the operand again. -/
def repetition (operand : Code) : Compile Code := loop (Code.seq [.append] ++ operand)

/-- Code of a literal. Without case, the input is taken as it is written, so the constant holds the
lowered text and its length in characters stands in the code. -/
def literal (value : String) (ignoreCase : Bool) : Compile Code :=
  if value.isEmpty then do
    let empty ← intern (.string "")
    pure (Code.seq [.push empty])
  else do
    let text ← intern (.string (if ignoreCase then Text.lower value else value))
    let expected ← intern (.expectation (.ofLiteral value))
    if ignoreCase then do
      let n ← operand "literal length" value.length
      branch (.folded text) (Code.seq [.acceptN n]) (Code.seq [.fail expected])
    else branch (.string text) (Code.seq [.acceptString text]) (Code.seq [.fail expected])

/-- Code of a class. An empty class has no case to ignore. -/
def charClass (k : CharClass) (text : String) : Compile Code := do
  let members ← intern (.charClass { k with ignoreCase := k.ignoreCase && !k.parts.isEmpty })
  let expected ← intern (.expectation (.ofClass text))
  branch (.charClass members) (Code.seq [.acceptN 1]) (Code.seq [.fail expected])

/-- Code of a predicate, from the code of its operand. Going back takes the saved place off the
stack; where the operand failed it is dropped, or gone back to for the negated predicate. -/
def predicate (negated : Bool) (undefined failed : UInt32) (operand : Code) : Compile Code := do
  let answer ←
    if negated then
      branch .isFailed (Code.seq [.pop, .pop, .push undefined])
        (Code.seq [.pop, .popPos, .push failed])
    else
      branch .isMatched (Code.seq [.pop, .popPos, .push undefined])
        (Code.seq [.pop, .pop, .push failed])
  pure (Code.seq [.pushPos, .silenceOn] ++ operand ++ Code.seq [.silenceOff] ++ answer)

/-- Code of a predicate that asks a function. -/
def guard (negated : Bool) (code : String) (ctx : Context) (s : Scope) : Compile Code := do
  let f ← function s code
  let undefined ← intern .undefined
  let failed ← intern .failed
  let call ← Code.call f 0 s ctx.sp
  let answer ←
    branch .isTrue (Code.seq [.pop, .push (if negated then failed else undefined)])
      (Code.seq [.pop, .push (if negated then undefined else failed)])
  pure (Code.seq [.reportHere] ++ call ++ answer)

/-- Code of a bounded repetition, from the code of its first and of its later attempts. The bound
from above is asked for after each match, the bound from below at the end. -/
def bounded (empty failed min max : UInt32) (first next : Code) : Compile Code := do
  let more ← branch .isFull (Code.seq [.push failed]) next
  let rounds ← loop (Code.seq [.append, .push max] ++ more)
  let enough ← branch .isShort (Code.seq [.pop, .push failed]) []
  pure (Code.seq [.push empty] ++ first ++ rounds ++ Code.seq [.pop, .push min] ++ enough)

/-- Code of a later attempt of a repetition with a delimiter: where the operand fails after the
delimiter, the place before the delimiter is gone back to. -/
def delimited (failed : UInt32) (delimiter operand : Code) : Compile Code := do
  let back ← branch .isFailed (Code.seq [.pop, .popPos, .push failed]) (Code.seq [.nip])
  let next ← branch .isMatched (Code.seq [.pop] ++ operand ++ back) (Code.seq [.nip])
  pure (Code.seq [.pushPos] ++ delimiter ++ next)

/-- Code of an action, from the code of an operand that is no sequence of elements. -/
def action (operand : Code) (code : String) (ctx : Context) (s : Scope) : Compile Code := do
  let f ← function s code
  let call ← Code.call f 1 s (ctx.sp + 2)
  let answer ← branch .isMatched (Code.seq [.reportSaved 1] ++ call) []
  pure (Code.seq [.pushPos] ++ operand ++ answer ++ Code.seq [.nip])

/-- Code after the `n` elements of a sequence: the call of its action, or an array of the values. -/
def collect (n : Nat) (ctx : Context) (s : Scope) : Compile Code := do
  let count ← operand "element count" n
  match ctx.action with
  | some code => do
    let f ← function s code
    let call ← Code.call f n s ctx.sp
    pure (Code.seq [.reportSaved count] ++ call ++ Code.seq [.nip])
  | none => pure (Code.seq [.wrap count, .nip])

/-- Drops `n` values. -/
def dropValues (n : Nat) : Compile Code :=
  if 1 < n then do
    let k ← operand "element count" n
    pure (Code.seq [.popN k])
  else pure (Code.seq [.pop])

end Compile

/-- Whether the expression is a sequence with elements. -/
def Expr.hasElements : Expr → Bool
  | .sequence (_ :: _) => true
  | _ => false

open Compile

mutual

/-- Code of an expression; `rules` numbers the rules. -/
def Expr.compile (rules : String → Option Nat) : Expr → Context → Scope → Compile Code
  | .named name e, ctx, s => do
    let expected ← intern (.expectation (.other name))
    let inner ← e.compile rules ctx s
    let report ← branch .isFailed (Code.seq [.pop, .fail expected]) []
    pure (Code.seq [.silenceOn] ++ inner ++ Code.seq [.silenceOff] ++ report)
  | .choice es, ctx, _ => compileChoice rules es ctx
  | .action e code, ctx, _ =>
    if e.hasElements then e.compile rules ((ctx.push 0).withAction code) []
    else do
      let inner ← e.compile rules (ctx.push 1) []
      Compile.action inner code ctx (e.bind (ctx.sp + 2) [])
  | .sequence es, ctx, s => do
    let failed ← intern .failed
    let body ← compileElements rules failed es 0 (ctx.step 1) s
    pure (Code.seq [.pushPos] ++ body)
  | .labeled _ e, ctx, _ => e.compile rules (ctx.push 0) []
  | .text e, ctx, _ => do
    let inner ← e.compile rules (ctx.push 1) []
    let cut ← branch .isMatched (Code.seq [.text]) []
    pure (Code.seq [.pushPos] ++ inner ++ cut ++ Code.seq [.nip])
  | .followedBy e, ctx, _ => do
    let undefined ← intern .undefined
    let failed ← intern .failed
    let inner ← e.compile rules (ctx.push 1) []
    predicate false undefined failed inner
  | .notFollowedBy e, ctx, _ => do
    let undefined ← intern .undefined
    let failed ← intern .failed
    let inner ← e.compile rules (ctx.push 1) []
    predicate true undefined failed inner
  | .guard code, ctx, s => Compile.guard false code ctx s
  | .guardNot code, ctx, s => Compile.guard true code ctx s
  | .optional e, ctx, _ => do
    let null ← intern .null
    let inner ← e.compile rules (ctx.push 0) []
    let other ← branch .isFailed (Code.seq [.pop, .push null]) []
    pure (inner ++ other)
  | .zeroOrMore e, ctx, _ => do
    let empty ← intern .emptyArray
    let inner ← e.compile rules (ctx.push 1) []
    let more ← repetition inner
    pure (Code.seq [.push empty] ++ inner ++ more ++ Code.seq [.pop])
  | .oneOrMore e, ctx, _ => do
    let empty ← intern .emptyArray
    let failed ← intern .failed
    let inner ← e.compile rules (ctx.push 1) []
    let more ← repetition inner
    let rest ← branch .isMatched (more ++ Code.seq [.pop]) (Code.seq [.pop, .pop, .push failed])
    pure (Code.seq [.push empty] ++ inner ++ rest)
  | .bounded e min max d, ctx, _ => do
    let empty ← intern .emptyArray
    let failed ← intern .failed
    let first ← e.compile rules (ctx.push 1) []
    let next ← compileNext rules failed first d (ctx.push 2)
    let min ← intern (.bound min)
    let max ← intern (.bound max)
    Compile.bounded empty failed min max first next
  | .rule name, _, _ =>
    match rules name with
    | some i => pure (Code.seq [.rule (UInt32.ofNat i)])
    | none => throw (.undefinedRule name)
  | .literal value ignoreCase, _, _ => Compile.literal value ignoreCase
  | .charClass k text, _, _ => Compile.charClass k text
  | .any, _, _ => do
    let expected ← intern (.expectation .anyChar)
    branch .any (Code.seq [.acceptN 1]) (Code.seq [.fail expected])

/-- Code of a choice: an alternative that fails leaves its place to the next one. -/
def compileChoice (rules : String → Option Nat) : List Expr → Context → Compile Code
  | [], _ => do
    let failed ← intern .failed
    pure (Code.seq [.push failed])
  | [e], ctx => e.compile rules (ctx.push 0) []
  | e :: e' :: es, ctx => do
    let first ← e.compile rules (ctx.push 0) []
    let others ← compileChoice rules (e' :: es) ctx
    let rest ← branch .isFailed (Code.seq [.pop] ++ others) []
    pure (first ++ rest)

/-- Code of the elements of a sequence after the first `n`, whose values lie above the saved place. -/
def compileElements (rules : String → Option Nat) (failed : UInt32) :
    List Expr → Nat → Context → Scope → Compile Code
  | [], n, ctx, s => collect n ctx s
  | e :: es, n, ctx, s => do
    let first ← e.compile rules (ctx.push 0) s
    let others ← compileElements rules failed es (n + 1) (ctx.step 1) (e.bind (ctx.sp + 1) s)
    let drop ← dropValues (n + 1)
    let rest ← branch .isMatched others (drop ++ Code.seq [.popPos, .push failed])
    pure (first ++ rest)

/-- Code of the later attempts of a bounded repetition, from the code of its operand. -/
def compileNext (rules : String → Option Nat) (failed : UInt32) (operand : Code) :
    Option Expr → Context → Compile Code
  | none, _ => pure operand
  | some d, ctx => do
    let delimiter ← d.compile rules ctx []
    delimited failed delimiter operand

end

end PegMachine
