import PegMachine.Code.Block

/-! Stack heights. A height is found without running the code: both bodies of a test must leave the
same one, and the body of a loop must leave the one it started with. Heights are counted in 32 bits, so
that code with operands near the ends of their range may take the count beyond it; what comes of that is
left to an `Arithmetic`. -/
namespace PegMachine

/-- Why no height can be given. -/
inductive HeightFault where
  | unknown (word : UInt32)
  | truncated (op : Opcode)
  /-- An instruction takes more values than there are. -/
  | underflow (op : Opcode) (needed : Int)
  /-- A test, loop or call looks at more values than there are. -/
  | short (op : Opcode) (needed height : Int)
  | branchOverrun (op : Opcode)
  | loopOverrun (op : Opcode)
  | unequal (op : Opcode) (yes no : Int)
  | drift (before after : Int)
  | slot (slot height : Int)
  /-- The code of a rule leaves more or less than its value. -/
  | leaves (height : Int)
  deriving DecidableEq, Repr

/-- A fault and the place of its instruction. -/
structure HeightError where
  ip : Nat
  fault : HeightFault
  deriving DecidableEq, Repr

/-- The fault in words. -/
def HeightFault.message : HeightFault → String
  | .unknown w => "unknown opcode " ++ toString w.toNat
  | .truncated op => "truncated operands for " ++ op.mnemonic
  | .underflow op n => "stack underflow at " ++ op.mnemonic ++ ", needed " ++ toString n ++ " items"
  | .short op n h =>
    "stack underflow at " ++ op.mnemonic ++ ", needed " ++ toString n ++ " items, have " ++ toString h
  | .branchOverrun op => op.mnemonic ++ " bodies overrun the enclosing span"
  | .loopOverrun op => op.mnemonic ++ " body overruns the enclosing span"
  | .unequal op a b =>
    op.mnemonic ++ " branches disagree: then leaves " ++ toString a ++ ", else leaves " ++ toString b
  | .drift a b => "loop body changes stack height from " ++ toString a ++ " to " ++ toString b
  | .slot s h => "parameter slot " ++ toString s ++ " outside stack of height " ++ toString h
  | .leaves h => "rule leaves " ++ toString h ++ " values on the stack, expected 1"

namespace HeightError

/-- The words of a fault with its place before them. -/
def located (ip : Nat) (words : String) : String :=
  "stack-check error at ip=" ++ toString ip ++ ": " ++ words

/-- The error in words. -/
def message (e : HeightError) : String := located e.ip e.fault.message

end HeightError

/-- A word as a height: the upper half of the words stands for the negative numbers. -/
def signed (w : UInt32) : Int :=
  if w.toNat < 0x80000000 then w.toNat else w.toNat - 0x100000000

/-- The number of values an instruction takes from the stack. -/
def Instr.pops : Instr → Int
  | .push _ | .pushPos | .acceptN _ | .acceptString _ | .fail _ | .rule _ | .reportHere
  | .silenceOn | .silenceOff => 0
  | .pop | .popPos => 1
  | .nip | .append | .text => 2
  | .popN n | .wrap n => signed n
  | .reportSaved k => signed k + 1

/-- The number of values an instruction puts on the stack. -/
def Instr.pushes : Instr → Int
  | .pop | .popPos | .popN _ | .reportHere | .silenceOn | .silenceOff => 0
  | .push _ | .pushPos | .nip | .append | .wrap _ | .acceptN _ | .acceptString _ | .fail _
  | .rule _ => 1
  | .text => 2
  | .reportSaved k => signed k + 1

/-- The number of values a test or loop looks at before its operands are read. -/
def Opcode.reads : Opcode → Nat
  | .ifTrue | .ifFailed | .ifMatched | .whileMatched => 1
  | .ifShort | .ifFull => 2
  | _ => 0

/-- The number of values a test takes from the stack. -/
def Test.pops : Test → Int
  | .isShort | .isFull => 1
  | _ => 0

/-- What a check does with the numbers it works out and with the faults it finds. -/
structure Arithmetic (ε : Type) where
  fault : HeightError → ε
  /-- A sum or a difference as it is kept. -/
  fit : Int → Except ε Int

/-- Why a check in 32 bits stops. -/
inductive HeightStop where
  | fault (e : HeightError)
  /-- A sum or a difference is out of range. -/
  | overflow
  deriving DecidableEq, Repr

namespace Arithmetic

variable {ε α : Type}

/-- Numbers of any size. -/
def exact : Arithmetic HeightError := ⟨id, .ok⟩

/-- Numbers of 32 bits that go on at the other end of their range. -/
def wrapping : Arithmetic HeightError := ⟨id, fun n => .ok (n.bmod 0x100000000)⟩

/-- Numbers of 32 bits; the check stops where one is out of range. -/
def trapping : Arithmetic HeightStop :=
  ⟨.fault, fun n => if -0x80000000 ≤ n ∧ n < 0x80000000 then .ok n else .error .overflow⟩

/-- Stops with a fault. -/
def refuse (a : Arithmetic ε) (e : HeightError) : Except ε α := .error (a.fault e)

/-- A test that needs no arithmetic. -/
def check (a : Arithmetic ε) (x : Except HeightError α) : Except ε α := x.mapError a.fault

theorem exact_check (x : Except HeightError α) : exact.check x = x := by
  cases x <;> rfl

end Arithmetic

namespace Block

/-- Refuses a height below what the opcode looks at, if it looks at any. -/
def need (ip : Nat) (op : Opcode) (h : Int) : Except HeightError Unit :=
  if op.reads ≠ 0 ∧ h < op.reads then .error ⟨ip, .short op op.reads h⟩ else .ok ()

/-- Refuses a slot that is not below the height. -/
def needSlots (ip : Nat) (h : Int) : Code → Except HeightError Unit
  | [] => .ok ()
  | s :: ss => if h ≤ signed s then .error ⟨ip, .slot (signed s) h⟩ else needSlots ip h ss

/-- The height after the code, from the height before it. -/
def heightIn {ε : Type} (a : Arithmetic ε) : Block → Int → Except ε Int
  | .done, h => .ok h
  | .unknown ip w, _ => a.refuse ⟨ip, .unknown w⟩
  | .truncated ip op slots, h => do
    a.check (need ip op h)
    a.check (needSlots ip h slots)
    a.refuse ⟨ip, .truncated op⟩
  | .branchOverrun ip t _ _, h => do
    a.check (need ip t.opcode h)
    a.refuse ⟨ip, .branchOverrun t.opcode⟩
  | .loopOverrun ip _, h => do
    a.check (need ip .whileMatched h)
    a.refuse ⟨ip, .loopOverrun .whileMatched⟩
  | .instr ip i rest, h => do
    let pops ← a.fit i.pops
    let pushes ← a.fit i.pushes
    let left ← a.fit (h - pops)
    if left < 0 then a.refuse ⟨ip, .underflow i.opcode pops⟩
    else do
      let k ← a.fit (left + pushes)
      rest.heightIn a k
  | .branch ip t _ _ yes no rest, h => do
    a.check (need ip t.opcode h)
    -- there are as many values as the test takes, so that this is never out of range
    let left ← a.fit (h - t.pops)
    let y ← yes.heightIn a left
    let n ← no.heightIn a left
    if y = n then rest.heightIn a y else a.refuse ⟨ip, .unequal t.opcode y n⟩
  | .loop ip _ body rest, h => do
    a.check (need ip .whileMatched h)
    let k ← body.heightIn a h
    if k = h then rest.heightIn a h else a.refuse ⟨ip, .drift h k⟩
  | .call ip _ pops slots rest, h => do
    a.check (needSlots ip h slots)
    if h < signed pops then a.refuse ⟨ip, .short .call (signed pops) h⟩
    else do
      let left ← a.fit (h - signed pops)
      let k ← a.fit (left + 1)
      rest.heightIn a k

/-- The height after the code where no number is out of range. -/
def height (b : Block) (h : Int) : Except HeightError Int := b.heightIn .exact h

section height

variable (ip : Nat) (yes no body rest : Block) (h : Int)

theorem height_instr (i : Instr) : (instr ip i rest).height h =
    if h - i.pops < 0 then .error ⟨ip, .underflow i.opcode i.pops⟩
    else rest.height (h - i.pops + i.pushes) :=
  rfl

theorem height_branch (t : Test) (m n : Nat) : (branch ip t m n yes no rest).height h = (do
    need ip t.opcode h
    let a ← yes.height (h - t.pops)
    let b ← no.height (h - t.pops)
    if a = b then rest.height a else .error ⟨ip, .unequal t.opcode a b⟩) := by
  rw [height, heightIn, Arithmetic.exact_check]
  rfl

theorem height_loop (n : Nat) : (loop ip n body rest).height h = (do
    need ip .whileMatched h
    let a ← body.height h
    if a = h then rest.height h else .error ⟨ip, .drift h a⟩) := by
  rw [height, heightIn, Arithmetic.exact_check]
  rfl

theorem height_call (f pops : UInt32) (slots : Code) : (call ip f pops slots rest).height h = (do
    needSlots ip h slots
    if h < signed pops then .error ⟨ip, .short .call (signed pops) h⟩
    else rest.height (h - signed pops + 1)) := by
  rw [height, heightIn, Arithmetic.exact_check]
  rfl

end height

end Block

namespace Code

/-- The height after the code, from the height `h` before it. -/
def heightIn {ε : Type} (a : Arithmetic ε) (code : Code) (h : Int) : Except ε Int :=
  (Block.read 0 code).heightIn a h

/-- The height after the code where no number is out of range. -/
def height (code : Code) (h : Int) : Except HeightError Int := (Block.read 0 code).height h

/-- Checks that the code of a rule leaves one value on an empty stack. -/
def checkRule (code : Code) : Except HeightError Unit := do
  let h ← Code.height code 0
  if h = 1 then .ok () else .error ⟨code.length, .leaves h⟩

end Code
end PegMachine
