/-! Opcodes, the instructions they stand for, and the words that number them. -/
namespace PegMachine

/-- The words of a piece of code: opcodes, each followed by its operands and bodies. -/
abbrev Code := List UInt32

/-- The tag in the first word of an instruction. -/
inductive Opcode where
  | push | pushPos | pop | popPos | popN | nip | append | wrap | text
  | ifTrue | ifFailed | ifMatched | ifShort | ifFull | whileMatched
  | matchAny | matchString | matchFolded | matchClass
  | acceptN | acceptString | fail
  | reportSaved | reportHere | call | rule | silenceOn | silenceOff
  deriving DecidableEq, Repr

/-- An instruction without bodies. The comment gives the stack before and after, top last. -/
inductive Instr where
  /-- `( -- constant c)` -/
  | push (c : UInt32)
  /-- `( -- place)` -/
  | pushPos
  /-- `(v -- )` -/
  | pop
  /-- `(place -- )`, and goes back to it -/
  | popPos
  /-- `(v₁ … vₙ -- )` -/
  | popN (n : UInt32)
  /-- `(v w -- w)` -/
  | nip
  /-- `([…] v -- [… v])` -/
  | append
  /-- `(v₁ … vₙ -- [v₁ … vₙ])` -/
  | wrap (n : UInt32)
  /-- `(place v -- place text)` with the input from the place to here -/
  | text
  /-- `( -- text)`, and moves over `n` characters -/
  | acceptN (n : UInt32)
  /-- `( -- constant s)`, and moves over as many characters as it has -/
  | acceptString (s : UInt32)
  /-- `( -- failed)`, and records expectation `e` -/
  | fail (e : UInt32)
  /-- `( -- )`, and reports from the place `k` below the top -/
  | reportSaved (k : UInt32)
  /-- `( -- )`, and reports from here -/
  | reportHere
  /-- `( -- v)` with the value of rule `r` -/
  | rule (r : UInt32)
  /-- `( -- )`, and records no expectations until it is undone -/
  | silenceOn
  /-- `( -- )`, and undoes one silencing -/
  | silenceOff
  deriving DecidableEq, Repr

/-- The question an instruction with two bodies asks before it runs one of them. -/
inductive Test where
  /-- Is the top value true? -/
  | isTrue
  /-- Is the top value the mark of failure? -/
  | isFailed
  /-- Is the top value another one? -/
  | isMatched
  /-- Has the array under the bound fewer items than that? The bound goes. -/
  | isShort
  /-- Has the array under the bound at least as many items? The bound goes. -/
  | isFull
  /-- Is there a character? -/
  | any
  /-- Does constant `s` come next? -/
  | string (s : UInt32)
  /-- Does constant `s` come next once the input is lowered? -/
  | folded (s : UInt32)
  /-- Does a character of class `k` come next? -/
  | charClass (k : UInt32)
  deriving DecidableEq, Repr

/-- What an opcode starts. -/
inductive Form where
  | plain (i : Instr)
  | plainOf (i : UInt32 → Instr)
  | test (t : Test)
  | testOf (t : UInt32 → Test)
  | loop
  | call

/-- How the words after an opcode are laid out. -/
inductive Shape where
  /-- That many operands. -/
  | plain (operands : Nat)
  /-- `leading` operands, the lengths of two bodies, the bodies. -/
  | condition (leading : Nat)
  /-- The length of a body, the body. -/
  | loop
  /-- A function, a number of values, a number of slots, the slots. -/
  | call
  deriving DecidableEq, Repr

def Form.shape : Form → Shape
  | .plain _ => .plain 0
  | .plainOf _ => .plain 1
  | .test _ => .condition 0
  | .testOf _ => .condition 1
  | .loop => .loop
  | .call => .call

namespace Opcode

/-- The opcodes in the order of their numbers. -/
def all : List Opcode := [
  .push, .pushPos, .pop, .popPos, .popN, .nip, .append, .wrap, .text,
  .ifTrue, .ifFailed, .ifMatched, .ifShort, .ifFull, .whileMatched,
  .matchAny, .matchString, .matchFolded, .matchClass,
  .acceptN, .acceptString, .fail,
  .reportSaved, .reportHere, .call, .rule, .silenceOn, .silenceOff]

/-- The number of the opcode. -/
def word : Opcode → UInt32
  | .push => 0 | .pushPos => 1 | .pop => 2 | .popPos => 3 | .popN => 4 | .nip => 5
  | .append => 6 | .wrap => 7 | .text => 8 | .ifTrue => 9 | .ifFailed => 10 | .ifMatched => 11
  | .ifShort => 12 | .ifFull => 13 | .whileMatched => 14 | .matchAny => 15 | .matchString => 16
  | .matchFolded => 17 | .matchClass => 18 | .acceptN => 19 | .acceptString => 20 | .fail => 21
  | .reportSaved => 22 | .reportHere => 23 | .call => 24 | .rule => 25 | .silenceOn => 26
  | .silenceOff => 27

/-- The opcode with that number. -/
def ofWord? (w : UInt32) : Option Opcode := all[w.toNat]?

theorem ofWord?_word (op : Opcode) : ofWord? op.word = some op := by
  cases op <;> rfl

theorem word_of_ofWord? {w : UInt32} {op : Opcode} (h : ofWord? w = some op) : op.word = w := by
  have hw : w.toNat < all.length := (List.getElem?_eq_some_iff.1 h).1
  have key : ∀ n, n < all.length → ∀ op, all[n]? = some op → op.word = UInt32.ofNat n := by decide
  simpa using key w.toNat hw op h

theorem ofWord?_eq_some_iff {w : UInt32} {op : Opcode} : ofWord? w = some op ↔ w = op.word :=
  ⟨fun h => (word_of_ofWord? h).symm, fun h => h ▸ ofWord?_word op⟩

/-- What the opcode starts. -/
def form : Opcode → Form
  | .push => .plainOf .push
  | .pushPos => .plain .pushPos
  | .pop => .plain .pop
  | .popPos => .plain .popPos
  | .popN => .plainOf .popN
  | .nip => .plain .nip
  | .append => .plain .append
  | .wrap => .plainOf .wrap
  | .text => .plain .text
  | .ifTrue => .test .isTrue
  | .ifFailed => .test .isFailed
  | .ifMatched => .test .isMatched
  | .ifShort => .test .isShort
  | .ifFull => .test .isFull
  | .whileMatched => .loop
  | .matchAny => .test .any
  | .matchString => .testOf .string
  | .matchFolded => .testOf .folded
  | .matchClass => .testOf .charClass
  | .acceptN => .plainOf .acceptN
  | .acceptString => .plainOf .acceptString
  | .fail => .plainOf .fail
  | .reportSaved => .plainOf .reportSaved
  | .reportHere => .plain .reportHere
  | .call => .call
  | .rule => .plainOf .rule
  | .silenceOn => .plain .silenceOn
  | .silenceOff => .plain .silenceOff

def shape (op : Opcode) : Shape := op.form.shape

/-- The name of the opcode in listings. -/
def mnemonic : Opcode → String
  | .push => "PUSH"
  | .pushPos => "PUSH_CURR_POS"
  | .pop => "POP"
  | .popPos => "POP_CURR_POS"
  | .popN => "POP_N"
  | .nip => "NIP"
  | .append => "APPEND"
  | .wrap => "WRAP"
  | .text => "TEXT"
  | .ifTrue => "IF"
  | .ifFailed => "IF_ERROR"
  | .ifMatched => "IF_NOT_ERROR"
  | .ifShort => "IF_ARRLEN_MIN"
  | .ifFull => "IF_ARRLEN_MAX"
  | .whileMatched => "WHILE_NOT_ERROR"
  | .matchAny => "MATCH_ANY"
  | .matchString => "MATCH_STRING"
  | .matchFolded => "MATCH_STRING_IC"
  | .matchClass => "MATCH_REGEXP"
  | .acceptN => "ACCEPT_N"
  | .acceptString => "ACCEPT_STRING"
  | .fail => "FAIL"
  | .reportSaved => "REPORT_SAVED_POS"
  | .reportHere => "REPORT_CURR_POS"
  | .call => "CALL"
  | .rule => "RULE"
  | .silenceOn => "SILENT_FAILS_ON"
  | .silenceOff => "SILENT_FAILS_OFF"

end Opcode

/-- The opcode of an instruction. -/
def Instr.opcode : Instr → Opcode
  | .push _ => .push
  | .pushPos => .pushPos
  | .pop => .pop
  | .popPos => .popPos
  | .popN _ => .popN
  | .nip => .nip
  | .append => .append
  | .wrap _ => .wrap
  | .text => .text
  | .acceptN _ => .acceptN
  | .acceptString _ => .acceptString
  | .fail _ => .fail
  | .reportSaved _ => .reportSaved
  | .reportHere => .reportHere
  | .rule _ => .rule
  | .silenceOn => .silenceOn
  | .silenceOff => .silenceOff

/-- The operands of an instruction. -/
def Instr.operands : Instr → List UInt32
  | .push n | .popN n | .wrap n | .acceptN n | .acceptString n | .fail n | .reportSaved n
  | .rule n => [n]
  | .pushPos | .pop | .popPos | .nip | .append | .text | .reportHere | .silenceOn
  | .silenceOff => []

/-- The opcode of a test. -/
def Test.opcode : Test → Opcode
  | .isTrue => .ifTrue
  | .isFailed => .ifFailed
  | .isMatched => .ifMatched
  | .isShort => .ifShort
  | .isFull => .ifFull
  | .any => .matchAny
  | .string _ => .matchString
  | .folded _ => .matchFolded
  | .charClass _ => .matchClass

/-- The operands of a test. -/
def Test.operands : Test → List UInt32
  | .string n | .folded n | .charClass n => [n]
  | .isTrue | .isFailed | .isMatched | .isShort | .isFull | .any => []

end PegMachine
