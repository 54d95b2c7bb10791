import PegMachine.Code.Block
import PegMachine.Code.Program
import PegMachine.Text.Blank
import PegMachine.Text.Column

/-! Listings: code as lines, an instruction to a line and bodies set in below their instruction. -/
namespace PegMachine

/-- Words in decimal. -/
def Code.decimal (ws : Code) : String := ", ".intercalate (ws.map fun w => toString w.toNat)

/-- The constant as listings show it. -/
def Constant.display : Constant → String
  | .failed => "FAILED"
  | .undefined => "undefined"
  | .null => "null"
  | .emptyArray => "[]"
  | .string s => Text.quoted s
  | .charClass k => k.render
  | .expectation e => "expect " ++ e.description
  | .function f => "fn(" ++ ", ".intercalate f.params ++ ") \x7b " ++ f.code ++ " \x7d"
  | .bound (some n) => toString n.toNat
  | .bound none => "unbounded"

/-- A line of a listing; `depth` is the number of bodies around it. -/
inductive Line where
  /-- An instruction, its operands, and a remark on the constant it refers to. -/
  | entry (depth ip : Nat) (op : Opcode) (operands : String) (note : Option String)
  | unknown (depth ip : Nat) (word : UInt32)
  | truncated (depth ip : Nat) (op : Opcode)
  /-- Words that stand under the mnemonic of the instruction they belong to. -/
  | mark (depth : Nat) (words : String)
  deriving DecidableEq, Repr

namespace Line

/-- The blanks before a line. -/
def indent (depth : Nat) : String := String.ofList (List.replicate (2 * depth) ' ')

/-- A place, in four digits or more. -/
def place (ip : Nat) : String := Text.alignRight 4 '0' (toString ip)

/-- The line as text. -/
def render : Line → String
  | .entry d ip op operands note =>
    Text.trimEnd <| indent d ++ place ip ++ "  " ++ Text.alignLeft 18 op.mnemonic ++ operands ++
      match note with
      | some n => "  ; " ++ n
      | none => ""
  | .unknown d ip w => indent d ++ place ip ++ "  <bad opcode " ++ toString w.toNat ++ ">"
  | .truncated d ip op => indent d ++ place ip ++ "  " ++ op.mnemonic ++ " <truncated>"
  | .mark d words => indent d ++ "      " ++ words

end Line

/-- The remark on the constant numbered `i`. -/
def constantNote (consts : List Constant) (i : UInt32) : String :=
  match consts[i.toNat]? with
  | some c => c.display
  | none => "<missing constant " ++ toString i.toNat ++ ">"

/-- The constant that an instruction refers to. -/
def Instr.constant? : Instr → Option UInt32
  | .push c | .acceptString c | .fail c => some c
  | _ => none

/-- The constant that a test refers to. -/
def Test.constant? (t : Test) : Option UInt32 := t.operands.head?

namespace Block

/-- The line of a test. -/
def testLine (consts : List Constant) (d ip : Nat) (t : Test) (yes no : Nat) : Line :=
  .entry d ip t.opcode
    (Code.decimal t.operands ++ (if t.operands.isEmpty then "" else ", ") ++ "then " ++ toString yes
      ++ ", else " ++ toString no)
    (t.constant?.map (constantNote consts))

/-- The line of a loop. -/
def loopLine (d ip size : Nat) : Line :=
  .entry d ip .whileMatched ("body " ++ toString size) none

/-- The lines of the code inside `d` bodies. A fault ends the stretch it is found in. -/
def lines (consts : List Constant) : Block → Nat → List Line
  | .done, _ => []
  | .unknown ip w, d => [.unknown d ip w]
  | .truncated ip op _, d => [.truncated d ip op]
  | .branchOverrun ip t a b, d =>
    [testLine consts d ip t a b, .mark d "<bodies overrun span>"]
  | .loopOverrun ip a, d => [loopLine d ip a, .mark d "<body overruns span>"]
  | .instr ip i rest, d =>
    .entry d ip i.opcode (Code.decimal i.operands) (i.constant?.map (constantNote consts))
      :: rest.lines consts d
  | .branch ip t a b yes no rest, d =>
    testLine consts d ip t a b :: .mark d "then:" :: yes.lines consts (d + 1)
      ++ (if 0 < b then .mark d "else:" :: no.lines consts (d + 1) else [])
      ++ rest.lines consts d
  | .loop ip a body rest, d =>
    loopLine d ip a :: body.lines consts (d + 1) ++ rest.lines consts d
  | .call ip f pops slots rest, d =>
    .entry d ip .call
      (toString f.toNat ++ ", pop " ++ toString pops.toNat ++ ", [" ++ Code.decimal slots ++ "]")
      (some (constantNote consts f))
      :: rest.lines consts d

end Block

/-- Lines as text, each with its end. -/
def Line.renderAll (ls : List Line) : String := String.join (ls.map fun l => l.render ++ "\n")

/-- The listing of one piece of code. -/
def Code.listing (code : Code) (consts : List Constant) : String :=
  Line.renderAll ((Block.read 0 code).lines consts 0)

namespace Program

/-- The line of the constant numbered `i`. -/
def constantLine (c : Constant) (i : Nat) : String :=
  "  [" ++ Text.alignRight 3 ' ' (toString i) ++ "] " ++ c.display ++ "\n"

/-- A line between the parts of a listing. -/
def rule : String := String.ofList (List.replicate 40 '═') ++ "\n"

/-- The listing of the rule numbered `i`. -/
def ruleListing (consts : List Constant) (r : RuleCode) (i : Nat) : String :=
  rule ++ " rule[" ++ toString i ++ "] " ++ r.name ++ "\n " ++ toString r.code.length ++ " words\n"
    ++ rule ++ r.code.listing consts ++ "\n"

/-- The listing of a program: its constants, then its rules. -/
def listing (p : Program) : String :=
  "=== CONSTANTS (" ++ toString p.consts.length ++ ") ===\n"
    ++ String.join (p.consts.mapIdx fun i c => constantLine c i) ++ "\n"
    ++ String.join (p.rules.mapIdx fun i r => ruleListing p.consts r i)

end Program
end PegMachine
