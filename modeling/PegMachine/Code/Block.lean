import PegMachine.Code.Opcode

/-! Code read as a tree. A body is the stretch of words that its instruction names, so it ends where
that stretch ends, and reading never looks beyond the stretch it is given. -/
namespace PegMachine

/-- An opcode with the operands before its bodies. -/
inductive Head where
  | instr (i : Instr)
  /-- A test and the lengths of its two bodies. -/
  | branch (t : Test) (yes no : Nat)
  /-- The length of the body. -/
  | loop (body : Nat)
  | call (f pops : UInt32) (slots : Code)
  deriving DecidableEq, Repr

/-- Reads the operands that the form asks for. Returns the words after them, or `none` if there are
too few. -/
def Head.read : Form → Code → Option (Head × Code)
  | .plain i, ws => some (.instr i, ws)
  | .plainOf i, n :: ws => some (.instr (i n), ws)
  | .test t, a :: b :: ws => some (.branch t a.toNat b.toNat, ws)
  | .testOf t, n :: a :: b :: ws => some (.branch (t n) a.toNat b.toNat, ws)
  | .loop, n :: ws => some (.loop n.toNat, ws)
  | .call, f :: p :: n :: ws =>
    if n.toNat ≤ ws.length then some (.call f p (ws.take n.toNat), ws.drop n.toNat) else none
  | _, _ => none

theorem Head.read_length {f : Form} {args ws : Code} {h : Head} (hr : read f args = some (h, ws)) :
    ws.length ≤ args.length := by
  revert hr
  fun_cases read f args <;> grind

/-- A stretch of code as a tree. `ip` is the place of an instruction in the code of its rule. -/
inductive Block where
  /-- The end of the stretch. -/
  | done
  /-- A word that numbers no opcode. -/
  | unknown (ip : Nat) (word : UInt32)
  /-- An instruction whose operands leave the stretch. Of a call, `slots` are those inside. -/
  | truncated (ip : Nat) (op : Opcode) (slots : Code)
  /-- A test whose bodies leave the stretch. -/
  | branchOverrun (ip : Nat) (t : Test) (yes no : Nat)
  /-- A loop whose body leaves the stretch. -/
  | loopOverrun (ip : Nat) (body : Nat)
  | instr (ip : Nat) (i : Instr) (rest : Block)
  | branch (ip : Nat) (t : Test) (yesSize noSize : Nat) (yes no rest : Block)
  | loop (ip : Nat) (size : Nat) (body rest : Block)
  | call (ip : Nat) (f pops : UInt32) (slots : Code) (rest : Block)
  deriving DecidableEq, Repr

/-- The tree of a stretch of code that starts at place `ip`. -/
def Block.read (ip : Nat) (code : Code) : Block :=
  match code with
  | [] => .done
  | w :: args =>
    match Opcode.ofWord? w with
    | none => .unknown ip w
    | some op =>
      match h : Head.read op.form args with
      | none => .truncated ip op (if op = .call then args.drop 3 else [])
      | some (.instr i, ws) => .instr ip i (read (ip + 1 + i.operands.length) ws)
      | some (.branch t a b, ws) =>
        let start := ip + 3 + t.operands.length
        if a + b ≤ ws.length then
          .branch ip t a b (read start (ws.take a)) (read (start + a) ((ws.drop a).take b))
            (read (start + a + b) (ws.drop (a + b)))
        else .branchOverrun ip t a b
      | some (.loop a, ws) =>
        if a ≤ ws.length then
          .loop ip a (read (ip + 2) (ws.take a)) (read (ip + 2 + a) (ws.drop a))
        else .loopOverrun ip a
      | some (.call f p slots, ws) => .call ip f p slots (read (ip + 4 + slots.length) ws)
termination_by code.length
decreasing_by
  all_goals
    have := Head.read_length h
    simp only [List.length_cons, List.length_take, List.length_drop]
    omega

end PegMachine
