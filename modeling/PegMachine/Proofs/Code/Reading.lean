import PegMachine.Code.Block
import PegMachine.Compile.Build
import PegMachine.Proofs.Results

/-! Code is read piece by piece: what follows a finished piece does not change how it is read. -/
namespace PegMachine

variable {a b yes no body br lp c : Code} {t : Test}

theorem operand_toNat {what : String} {n : ℕ} {w : UInt32} (h : operand what n = .ok w) :
    w.toNat = n := by
  unfold operand at h
  split at h
  · obtain rfl := Except.ok.inj h
    exact UInt32.toNat_ofNat_of_lt' ‹_›
  · cases h

namespace Code

/-- The words of a test with its bodies. -/
theorem branch_words {test : Code} (h : branch test yes no = .ok br) :
    ∃ m n : UInt32, m.toNat = yes.length ∧ n.toNat = no.length ∧
      br = test ++ m :: n :: (yes ++ no) := by
  obtain ⟨m, hm, h⟩ := except_bind_eq_ok.mp h
  obtain ⟨n, hn, h⟩ := except_bind_eq_ok.mp h
  exact ⟨m, n, operand_toNat hm, operand_toNat hn, by simpa using (Except.ok.inj h).symm⟩

/-- The words of a loop. -/
theorem loop_words {test : Code} (h : loop test body = .ok lp) :
    ∃ n : UInt32, n.toNat = body.length ∧ lp = test ++ n :: body := by
  obtain ⟨n, hn, h⟩ := except_bind_eq_ok.mp h
  exact ⟨n, operand_toNat hn, by simpa using (Except.ok.inj h).symm⟩

/-- The words of a call. -/
theorem call_words {f : UInt32} {pops : ℕ} {s : Scope} {sp : ℤ}
    (h : call f pops s sp = .ok c) :
    ∃ (slots : Code) (n k : UInt32), s.offsets sp = .ok slots ∧ n.toNat = pops ∧
      k.toNat = slots.length ∧ c = Opcode.call.word :: f :: n :: k :: slots := by
  obtain ⟨slots, hs, h⟩ := except_bind_eq_ok.mp h
  obtain ⟨n, hn, h⟩ := except_bind_eq_ok.mp h
  obtain ⟨k, hk, h⟩ := except_bind_eq_ok.mp h
  exact ⟨slots, n, k, hs, operand_toNat hn, operand_toNat hk, (Except.ok.inj h).symm⟩

end Code

namespace Block

/-- `c` in place of the end of a stretch. One that cannot be read to its end stays as it is. -/
def append : Block → Block → Block
  | .done, c => c
  | .instr ip i rest, c => .instr ip i (rest.append c)
  | .branch ip t m n yes no rest, c => .branch ip t m n yes no (rest.append c)
  | .loop ip n body rest, c => .loop ip n body (rest.append c)
  | .call ip f p slots rest, c => .call ip f p slots (rest.append c)
  | b, _ => b

theorem append_assoc (a b c : Block) : (a.append b).append c = a.append (b.append c) := by
  induction a with
  | done => rfl
  | instr ip i rest ih => simp only [append, ih]
  | branch ip t m n yes no rest _ _ ih => simp only [append, ih]
  | loop ip n body rest _ ih => simp only [append, ih]
  | call ip f p slots rest ih => simp only [append, ih]
  | unknown | truncated | branchOverrun | loopOverrun => rfl

theorem read_nil (ip : ℕ) : read ip [] = .done := by
  rw [read]

theorem read_instr (ip : ℕ) (i : Instr) (ws : Code) :
    read ip (i.words ++ ws) = .instr ip i (read (ip + i.words.length) ws) := by
  cases i <;> rw [Instr.words, List.cons_append, read] <;>
    simp [Instr.opcode, Instr.operands, Opcode.ofWord?_word, Opcode.form, Head.read]

/-- The head of a test: the bodies stand after it. -/
theorem head_read_test (t : Test) (m n : UInt32) (ws : Code) :
    Head.read t.opcode.form (t.operands ++ m :: n :: ws) =
      some (.branch t m.toNat n.toNat, ws) := by
  cases t <;> rfl

theorem read_branch_at (h : Code.branch t.words yes no = .ok br) (ip : ℕ) (ws : Code) :
    read ip (br ++ ws) = .branch ip t yes.length no.length
      (read (ip + 3 + t.operands.length) yes)
      (read (ip + 3 + t.operands.length + yes.length) no) (read (ip + br.length) ws) := by
  obtain ⟨m, n, hm, hn, rfl⟩ := Code.branch_words h
  have hlen : ip + 3 + t.operands.length + yes.length + no.length =
      ip + (t.words ++ m :: n :: (yes ++ no)).length := by
    simp only [Test.words, List.length_append, List.length_cons]
    omega
  have hw : (t.words ++ m :: n :: (yes ++ no)) ++ ws =
      t.opcode.word :: (t.operands ++ m :: n :: (yes ++ (no ++ ws))) := by
    simp [Test.words]
  rw [hw, read, Opcode.ofWord?_word]
  simp only
  split
  · next he => simp [head_read_test] at he
  · next he => simp [head_read_test] at he
  · next he =>
    rw [head_read_test] at he
    obtain ⟨⟨rfl, rfl, rfl⟩, rfl⟩ := by simpa using he
    simp [hm, hn, hlen]
  · next he => simp [head_read_test] at he
  · next he => simp [head_read_test] at he

theorem read_branch (h : Code.branch t.words yes no = .ok br) (ip : ℕ) :
    ∃ j k, ∀ ws, read ip (br ++ ws) = .branch ip t yes.length no.length (read j yes) (read k no)
      (read (ip + br.length) ws) :=
  ⟨_, _, read_branch_at h ip⟩

theorem read_loop_at (h : Code.loop (Code.op .whileMatched) body = .ok lp) (ip : ℕ) (ws : Code) :
    read ip (lp ++ ws) =
      .loop ip body.length (read (ip + 2) body) (read (ip + lp.length) ws) := by
  obtain ⟨n, hn, rfl⟩ := Code.loop_words h
  have hw : (Code.op .whileMatched ++ n :: body) ++ ws =
      Opcode.whileMatched.word :: n :: (body ++ ws) := by
    simp [Code.op]
  rw [hw, read, Opcode.ofWord?_word]
  simp [Opcode.form, Head.read, hn, Code.op]
  congr 1
  omega

theorem read_loop (h : Code.loop (Code.op .whileMatched) body = .ok lp) (ip : ℕ) :
    ∃ j, ∀ ws, read ip (lp ++ ws) =
      .loop ip body.length (read j body) (read (ip + lp.length) ws) :=
  ⟨_, read_loop_at h ip⟩

/-- The head of a call: all its slots are there. -/
theorem head_read_call {f n k : UInt32} {slots : Code} (hk : k.toNat = slots.length) (ws : Code) :
    Head.read .call (f :: n :: k :: (slots ++ ws)) = some (.call f n slots, ws) := by
  rw [Head.read, hk, if_pos (by simp)]
  simp

theorem read_call {f n k : UInt32} {slots : Code} (hk : k.toNat = slots.length) (ip : ℕ)
    (ws : Code) :
    read ip ((Opcode.call.word :: f :: n :: k :: slots) ++ ws) =
      .call ip f n slots (read (ip + (slots.length + 4)) ws) := by
  have hh := head_read_call (f := f) (n := n) hk ws
  simp only [List.cons_append]
  rw [read, Opcode.ofWord?_word]
  simp only [Opcode.form]
  split
  · next he => simp [hh] at he
  · next he => simp [hh] at he
  · next he => simp [hh] at he
  · next he => simp [hh] at he
  · next he =>
    rw [hh] at he
    obtain ⟨⟨rfl, rfl, rfl⟩, rfl⟩ := by simpa using he
    rw [Nat.add_assoc, Nat.add_comm 4]

end Block

namespace Code

/-- The code is read in full before what follows it. -/
def Whole (a : Code) : Prop :=
  ∀ ip ws, Block.read ip (a ++ ws) = (Block.read ip a).append (Block.read (ip + a.length) ws)

theorem whole_nil : Whole [] := by
  intro ip ws
  rw [Block.read_nil]
  rfl

theorem Whole.append (ha : Whole a) (hb : Whole b) : Whole (a ++ b) := by
  intro ip ws
  rw [List.append_assoc, ha, ha, hb, Block.append_assoc, List.length_append, Nat.add_assoc]

theorem whole_instr (i : Instr) : Whole i.words := by
  intro ip ws
  have h := Block.read_instr ip i []
  rw [List.append_nil] at h
  rw [Block.read_instr, h, Block.append, Block.read_nil, Block.append]

theorem whole_seq (is : List Instr) : Whole (seq is) := by
  induction is with
  | nil => exact whole_nil
  | cons i is ih => exact (whole_instr i).append ih

theorem whole_branch (h : branch t.words yes no = .ok br) : Whole br := by
  intro ip ws
  obtain ⟨j, k, hr⟩ := Block.read_branch h ip
  have hn := hr []
  rw [List.append_nil] at hn
  rw [hr, hn, Block.append, Block.read_nil, Block.append]

theorem whole_loop (h : loop (op .whileMatched) body = .ok lp) : Whole lp := by
  intro ip ws
  obtain ⟨j, hr⟩ := Block.read_loop h ip
  have hn := hr []
  rw [List.append_nil] at hn
  rw [hr, hn, Block.append, Block.read_nil, Block.append]

theorem whole_slots {f n k : UInt32} {slots : Code} (hk : k.toNat = slots.length) :
    Whole (Opcode.call.word :: f :: n :: k :: slots) := by
  intro ip ws
  have hn := Block.read_call (f := f) (n := n) hk ip []
  rw [List.append_nil] at hn
  rw [Block.read_call hk, hn, Block.append, Block.read_nil, Block.append]
  rfl

theorem whole_call {f : UInt32} {pops : ℕ} {s : Scope} {sp : ℤ} (h : call f pops s sp = .ok c) :
    Whole c := by
  obtain ⟨slots, n, k, -, -, hk, rfl⟩ := call_words h
  exact whole_slots hk

end Code
end PegMachine
