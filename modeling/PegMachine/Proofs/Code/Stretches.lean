import Mathlib
import PegMachine.Code.Block

/-! Code by the places of its words. The lengths of bodies and the numbers of slots are words like any
other, so a place worked out from them may be anywhere. Walks by place are watched here: they crash at the
first word, body or step that is not inside the stretch they are in. -/
namespace PegMachine

/-- A stretch of code: the places from `start` up to `stop`. -/
structure Stretch where
  start : ℕ
  stop : ℕ
  deriving DecidableEq, Repr

/-- How a walk ends that gives no answer. -/
inductive Crash where
  /-- A word is read that is outside the stretch or outside the code. -/
  | word (around : Stretch) (place : ℕ)
  /-- A body is entered that is turned round, or not inside the stretch around it, or not inside the code. -/
  | body (around body : Stretch)
  /-- A step does not lead on, or leads out of the stretch. -/
  | step (around : Stretch) (place next : ℕ)
  /-- Memory for so many values is refused. -/
  | memory (values : ℕ)
  deriving DecidableEq, Repr

/-- A computation that may crash. Those that never do are `ExceptT.lift` of what they compute. -/
abbrev Watched (m : Type → Type) := ExceptT Crash m

namespace Stretch

/-- The place is in the stretch or at its end, and the stretch is in the code. -/
structure Holds (code : Code) (r : Stretch) (ip : ℕ) : Prop where
  start_le : r.start ≤ ip
  le_stop : ip ≤ r.stop
  stop_le : r.stop ≤ code.length

/-- The words of a stretch. -/
def words (code : Code) (r : Stretch) : Code := (code.take r.stop).drop r.start

/-- The stretch as a tree. -/
def block (code : Code) (r : Stretch) : Block := Block.read r.start (r.words code)

end Stretch

/-- How the words after an opcode are laid out, and what they make. -/
inductive Layout where
  /-- So many operands. -/
  | plain (operands : ℕ) (i : UInt32 → Instr)
  /-- So many operands before the lengths of two bodies. -/
  | condition (leading : ℕ) (t : UInt32 → Test)
  | loop
  | call

def Form.layout : Form → Layout
  | .plain i => .plain 0 fun _ => i
  | .plainOf i => .plain 1 i
  | .test t => .condition 0 fun _ => t
  | .testOf t => .condition 1 t
  | .loop => .loop
  | .call => .call

namespace Opcode

variable {op : Opcode} {count : ℕ}

theorem layout_plain {i : UInt32 → Instr} (hl : op.form.layout = .plain count i) :
    count ≤ 1 ∧ ∀ w, (i w).opcode = op ∧ (i w).operands = if count = 0 then [] else [w] := by
  cases op <;> cases hl <;> exact ⟨by decide, fun w => ⟨rfl, rfl⟩⟩

theorem layout_condition {t : UInt32 → Test} (hl : op.form.layout = .condition count t) :
    count ≤ 1 ∧ ∀ w, (t w).opcode = op ∧ (t w).operands = if count = 0 then [] else [w] := by
  cases op <;> cases hl <;> exact ⟨by decide, fun w => ⟨rfl, rfl⟩⟩

theorem layout_loop (hl : op.form.layout = .loop) : op = .whileMatched := by
  cases op <;> cases hl
  rfl

theorem layout_call (hl : op.form.layout = .call) : op = .call := by
  cases op <;> cases hl
  rfl

end Opcode

namespace Watched

variable {m : Type → Type} [Monad m] {α β : Type}

/-- The word at a place. -/
def word (code : Code) (r : Stretch) (i : ℕ) : Watched m UInt32 :=
  match code[i]? with
  | some w => if r.start ≤ i ∧ i < r.stop then pure w else throw (.word r i)
  | none => throw (.word r i)

/-- A walk of a body. -/
def enter (code : Code) (r body : Stretch) (walk : Watched m α) : Watched m α :=
  if r.start ≤ body.start ∧ body.start ≤ body.stop ∧ body.stop ≤ r.stop ∧ body.stop ≤ code.length then
    walk
  else throw (.body r body)

/-- A walk that goes on with the instruction at `next`. -/
def advance (r : Stretch) (ip next : ℕ) (walk : Watched m α) : Watched m α :=
  if ip < next ∧ next ≤ r.stop then walk else throw (.step r ip next)

/-- Ends with a fault; as a computation without results it can stand for any other. -/
def refuse (fault : m Empty) : Watched m α := ExceptT.lift (fault >>= nofun)

/-- The word `k` places after the opcode, if the stretch goes that far. -/
def operandAt (code : Code) (r : Stretch) (ip k : ℕ) (fault : m Empty) : Watched m UInt32 :=
  if ip + k < r.stop then word code r (ip + k) else refuse fault

/-- The operand of an opcode that has `count` of them, none or one. -/
def argument (code : Code) (r : Stretch) (ip count : ℕ) (fault : m Empty) : Watched m UInt32 :=
  if count = 0 then pure 0 else operandAt code r ip 1 fault

/-- Reads `n` operands from the one `k` places after the opcode, and acts on each before the next. -/
def each (code : Code) (r : Stretch) (ip : ℕ) (fault : m Empty) (act : UInt32 → m β) :
    (k n : ℕ) → Watched m (List β)
  | _, 0 => pure []
  | k, n + 1 => do
    let w ← operandAt code r ip k fault
    let b ← ExceptT.lift (act w)
    let bs ← each code r ip fault act (k + 1) n
    pure (b :: bs)

/-- The `n` words from a place on. -/
def group (code : Code) (r : Stretch) : (i n : ℕ) → Watched m Code
  | _, 0 => pure []
  | i, n + 1 => do
    let w ← word code r i
    let ws ← group code r (i + 1) n
    pure (w :: ws)

end Watched

namespace Head

variable {f : Form} {args : Code} {count : ℕ}

theorem read_plain {i : UInt32 → Instr} (hl : f.layout = .plain count i) (h : count ≤ args.length) :
    read f args = some (.instr (i (if count = 0 then 0 else args.getD 0 0)), args.drop count) := by
  cases f with
  | plain j =>
    obtain ⟨rfl, rfl⟩ := Layout.plain.inj hl
    rfl
  | plainOf j =>
    obtain ⟨rfl, rfl⟩ := Layout.plain.inj hl
    cases args with
    | nil => simp at h
    | cons w ws => rfl
  | _ => cases hl

theorem read_plain_cut {i : UInt32 → Instr} (hl : f.layout = .plain count i)
    (h : args.length < count) : read f args = none := by
  cases f with
  | plain j =>
    obtain ⟨rfl, rfl⟩ := Layout.plain.inj hl
    cases h
  | plainOf j =>
    obtain ⟨rfl, rfl⟩ := Layout.plain.inj hl
    obtain rfl := List.length_eq_zero_iff.mp (Nat.lt_one_iff.mp h)
    rfl
  | _ => cases hl

theorem read_condition {t : UInt32 → Test} (hl : f.layout = .condition count t)
    (h : count + 2 ≤ args.length) :
    read f args = some (.branch (t (if count = 0 then 0 else args.getD 0 0))
      (args.getD count 0).toNat (args.getD (count + 1) 0).toNat, args.drop (count + 2)) := by
  cases f with
  | test j =>
    obtain ⟨rfl, rfl⟩ := Layout.condition.inj hl
    match args, h with
    | a :: b :: ws, _ => rfl
  | testOf j =>
    obtain ⟨rfl, rfl⟩ := Layout.condition.inj hl
    match args, h with
    | n :: a :: b :: ws, _ => rfl
  | _ => cases hl

theorem read_condition_cut {t : UInt32 → Test} (hl : f.layout = .condition count t)
    (h : args.length < count + 2) : read f args = none := by
  cases f with
  | test j =>
    obtain ⟨rfl, rfl⟩ := Layout.condition.inj hl
    match args, h with
    | [], _ | [_], _ => rfl
  | testOf j =>
    obtain ⟨rfl, rfl⟩ := Layout.condition.inj hl
    match args, h with
    | [], _ | [_], _ | [_, _], _ => rfl
  | _ => cases hl

theorem read_call_slots {g p n : UInt32} {ws : Code} (h : n.toNat ≤ ws.length) :
    read .call (g :: p :: n :: ws) = some (.call g p (ws.take n.toNat), ws.drop n.toNat) :=
  if_pos h

theorem read_call_cut {g p n : UInt32} {ws : Code} (h : ws.length < n.toNat) :
    read .call (g :: p :: n :: ws) = none :=
  if_neg (by omega)

theorem read_call_short (h : args.length < 3) : read .call args = none := by
  match args, h with
  | [], _ | [_], _ | [_, _], _ => rfl

end Head

namespace Block

/-- The tree that starts with a head. -/
def ofHead (ip : ℕ) (op : Opcode) (args : Code) : Option (Head × Code) → Block
  | none => .truncated ip op (if op = .call then args.drop 3 else [])
  | some (.instr i, ws) => .instr ip i (read (ip + 1 + i.operands.length) ws)
  | some (.branch t a b, ws) =>
    let start := ip + 3 + t.operands.length
    if a + b ≤ ws.length then
      .branch ip t a b (read start (ws.take a)) (read (start + a) ((ws.drop a).take b))
        (read (start + a + b) (ws.drop (a + b)))
    else .branchOverrun ip t a b
  | some (.loop a, ws) =>
    if a ≤ ws.length then .loop ip a (read (ip + 2) (ws.take a)) (read (ip + 2 + a) (ws.drop a))
    else .loopOverrun ip a
  | some (.call f p slots, ws) => .call ip f p slots (read (ip + 4 + slots.length) ws)

theorem read_cons {ip : ℕ} {w : UInt32} {op : Opcode} {args : Code}
    (hop : Opcode.ofWord? w = some op) :
    read ip (w :: args) = ofHead ip op args (Head.read op.form args) := by
  rw [read, hop]
  simp only
  split <;> next he => rw [he]; rfl

end Block

namespace Stretch

variable {code : Code} {a b ip n : ℕ} {r : Stretch} {op : Opcode}

theorem words_nil (h : b ≤ a) : words code ⟨a, b⟩ = [] := by
  simp only [words, List.drop_eq_nil_iff, List.length_take]
  omega

theorem words_cons (h : a < b) (hb : b ≤ code.length) :
    words code ⟨a, b⟩ = code.getD a 0 :: words code ⟨a + 1, b⟩ := by
  have ha : a < (code.take b).length := by
    rw [List.length_take]
    omega
  rw [words, List.drop_eq_getElem_cons ha, List.getElem_take, List.getD_eq_getElem _ _ (by omega)]
  rfl

theorem length_words (hb : b ≤ code.length) : (words code ⟨a, b⟩).length = b - a := by
  rw [words, List.length_drop, List.length_take, Nat.min_eq_left hb]

theorem take_words (h : a + n ≤ b) : (words code ⟨a, b⟩).take n = words code ⟨a, a + n⟩ := by
  rw [words, words, List.take_drop, List.take_take, Nat.min_eq_left h]

theorem drop_words : (words code ⟨a, b⟩).drop n = words code ⟨a + n, b⟩ := by
  rw [words, words, List.drop_drop]

theorem words_all : words code ⟨0, code.length⟩ = code := by
  rw [words, List.take_length, List.drop_zero]

theorem getD_words {k : ℕ} (h : a + k < b) (hb : b ≤ code.length) :
    (words code ⟨a, b⟩).getD k 0 = code.getD (a + k) 0 := by
  have hk : k < (words code ⟨a, b⟩).length := by
    rw [length_words hb]
    omega
  rw [List.getD_eq_getElem _ _ hk, List.getD_eq_getElem _ _ (by omega)]
  simp only [words, List.getElem_drop, List.getElem_take]

/-- The operand of an opcode that has `count` of them, none or one. -/
def operandOf (code : Code) (ip count : ℕ) : UInt32 := if count = 0 then 0 else code.getD (ip + 1) 0

theorem operandOf_words {count : ℕ} (h : ip + count < b) (hb : b ≤ code.length) :
    (if count = 0 then 0 else (words code ⟨ip + 1, b⟩).getD 0 0) = operandOf code ip count := by
  unfold operandOf
  split
  · rfl
  · rw [getD_words (by omega) hb]

/-- The operand as the only word after the opcode. -/
theorem words_operand {count : ℕ} (hcount : count ≤ 1) (h : ip + count < code.length) :
    words code ⟨ip + 1, ip + 1 + count⟩ = if count = 0 then [] else [operandOf code ip count] := by
  unfold operandOf
  split
  · exact words_nil (by omega)
  · obtain rfl : count = 1 := by omega
    rw [words_cons (by omega) (by omega), words_nil (by omega)]

/-! What the tree of a stretch starts with, by the layout of the words at its start. -/

theorem block_done (h : b ≤ a) : block code ⟨a, b⟩ = .done := by
  rw [block, words_nil h, Block.read]

theorem block_unknown (h : ip < b) (hb : b ≤ code.length)
    (hop : Opcode.ofWord? (code.getD ip 0) = none) :
    block code ⟨ip, b⟩ = .unknown ip (code.getD ip 0) := by
  rw [block, words_cons h hb, Block.read, hop]

theorem block_cons (h : ip < b) (hb : b ≤ code.length)
    (hop : Opcode.ofWord? (code.getD ip 0) = some op) :
    block code ⟨ip, b⟩ = Block.ofHead ip op (words code ⟨ip + 1, b⟩)
      (Head.read op.form (words code ⟨ip + 1, b⟩)) := by
  rw [block, words_cons h hb, Block.read_cons hop]

section plain

variable {count : ℕ} {i : UInt32 → Instr} (hl : op.form.layout = .plain count i)
  (hop : Opcode.ofWord? (code.getD ip 0) = some op) (hb : b ≤ code.length)
include hl hop hb

theorem block_plain (h : ip + count < b) :
    block code ⟨ip, b⟩ =
      .instr ip (i (operandOf code ip count)) (block code ⟨ip + 1 + count, b⟩) := by
  have hlen : count ≤ (words code ⟨ip + 1, b⟩).length := by
    rw [length_words hb]
    omega
  obtain ⟨hcount, hi⟩ := Opcode.layout_plain hl
  have hops : (i (operandOf code ip count)).operands.length = count := by
    rw [(hi _).2]
    split <;> simp <;> omega
  rw [block_cons (by omega) hb hop, Head.read_plain hl hlen, operandOf_words h hb, drop_words,
    Block.ofHead, hops]
  rfl

theorem block_plain_cut (h : ip < b) (hcut : b ≤ ip + count) :
    block code ⟨ip, b⟩ = .truncated ip op [] := by
  have hlen : (words code ⟨ip + 1, b⟩).length < count := by
    rw [length_words hb]
    omega
  have hne : op ≠ .call := by
    rintro rfl
    cases hl
  rw [block_cons h hb hop, Head.read_plain_cut hl hlen, Block.ofHead, if_neg hne]

end plain

section condition

variable {leading : ℕ} {t : UInt32 → Test} (hl : op.form.layout = .condition leading t)
  (hop : Opcode.ofWord? (code.getD ip 0) = some op) (hb : b ≤ code.length)
include hl hop hb

theorem block_condition {yes no : ℕ} (h : ip + (leading + 2) < b)
    (hy : (code.getD (ip + (leading + 1)) 0).toNat = yes)
    (hn : (code.getD (ip + (leading + 2)) 0).toNat = no) :
    block code ⟨ip, b⟩ =
      if ip + leading + 3 + yes + no ≤ b then
        .branch ip (t (operandOf code ip leading)) yes no
          (block code ⟨ip + leading + 3, ip + leading + 3 + yes⟩)
          (block code ⟨ip + leading + 3 + yes, ip + leading + 3 + yes + no⟩)
          (block code ⟨ip + leading + 3 + yes + no, b⟩)
      else .branchOverrun ip (t (operandOf code ip leading)) yes no := by
  have hlen : leading + 2 ≤ (words code ⟨ip + 1, b⟩).length := by
    rw [length_words hb]
    omega
  obtain ⟨hcount, ht⟩ := Opcode.layout_condition hl
  have hops : (t (operandOf code ip leading)).operands.length = leading := by
    rw [(ht _).2]
    split <;> simp <;> omega
  have hyes : (words code ⟨ip + 1, b⟩).getD leading 0 = code.getD (ip + (leading + 1)) 0 := by
    rw [getD_words (by omega) hb]
    congr 1
    omega
  have hno : (words code ⟨ip + 1, b⟩).getD (leading + 1) 0 = code.getD (ip + (leading + 2)) 0 := by
    rw [getD_words (by omega) hb]
    congr 1
    omega
  have hstart : ip + 1 + (leading + 2) = ip + leading + 3 := by omega
  have hbody : ip + 3 + leading = ip + leading + 3 := by omega
  rw [block_cons (by omega) hb hop, Head.read_condition hl hlen, operandOf_words (by omega) hb,
    drop_words, hyes, hno, hy, hn, hstart]
  simp only [Block.ofHead, hops, length_words hb, hbody]
  by_cases hin : ip + leading + 3 + yes + no ≤ b
  · rw [if_pos hin, if_pos (by omega), take_words (by omega), drop_words, drop_words,
      take_words (by omega), ← Nat.add_assoc]
    rfl
  · rw [if_neg hin, if_neg (by omega)]

theorem block_condition_cut (h : ip < b) (hcut : b ≤ ip + (leading + 2)) :
    block code ⟨ip, b⟩ = .truncated ip op [] := by
  have hlen : (words code ⟨ip + 1, b⟩).length < leading + 2 := by
    rw [length_words hb]
    omega
  have hne : op ≠ .call := by
    rintro rfl
    cases hl
  rw [block_cons h hb hop, Head.read_condition_cut hl hlen, Block.ofHead, if_neg hne]

end condition

section loop

variable (hop : Opcode.ofWord? (code.getD ip 0) = some .whileMatched) (hb : b ≤ code.length)
include hop hb

theorem block_loop {size : ℕ} (h : ip + 1 < b) (hs : (code.getD (ip + 1) 0).toNat = size) :
    block code ⟨ip, b⟩ =
      if ip + 2 + size ≤ b then
        .loop ip size (block code ⟨ip + 2, ip + 2 + size⟩) (block code ⟨ip + 2 + size, b⟩)
      else .loopOverrun ip size := by
  rw [block_cons (by omega) hb hop, words_cons h hb, Opcode.form, Head.read, hs]
  simp only [Block.ofHead, length_words hb]
  by_cases hin : ip + 2 + size ≤ b
  · rw [if_pos hin, if_pos (by omega), take_words (by omega), drop_words]
    rfl
  · rw [if_neg hin, if_neg (by omega)]

theorem block_loop_cut (h : ip < b) (hcut : b ≤ ip + 1) :
    block code ⟨ip, b⟩ = .truncated ip .whileMatched [] := by
  rw [block_cons h hb hop, words_nil hcut]
  rfl

end loop

theorem words_call (h : ip + 3 < b) (hb : b ≤ code.length) :
    words code ⟨ip + 1, b⟩ = code.getD (ip + 1) 0 :: code.getD (ip + 2) 0 ::
      code.getD (ip + 3) 0 :: words code ⟨ip + 4, b⟩ := by
  rw [words_cons (by omega) hb, words_cons (by omega) hb, words_cons (by omega) hb]

section call

variable (hop : Opcode.ofWord? (code.getD ip 0) = some .call) (hb : b ≤ code.length)
include hop hb

theorem block_call {n : ℕ} (h : ip + 4 + n ≤ b) (hn : (code.getD (ip + 3) 0).toNat = n) :
    block code ⟨ip, b⟩ = .call ip (code.getD (ip + 1) 0) (code.getD (ip + 2) 0)
      (words code ⟨ip + 4, ip + 4 + n⟩) (block code ⟨ip + 4 + n, b⟩) := by
  have hlen : (code.getD (ip + 3) 0).toNat ≤ (words code ⟨ip + 4, b⟩).length := by
    rw [length_words hb]
    omega
  have hslots : (words code ⟨ip + 4, ip + 4 + n⟩).length = n := by
    rw [length_words (by omega)]
    omega
  rw [block_cons (by omega) hb hop, words_call (by omega) hb, Opcode.form,
    Head.read_call_slots hlen, hn, take_words h, drop_words, Block.ofHead, hslots]
  rfl

/-- The slots that are there are still read. -/
theorem block_call_cut (h : ip + 3 < b) (hcut : b < ip + 4 + (code.getD (ip + 3) 0).toNat) :
    block code ⟨ip, b⟩ = .truncated ip .call (words code ⟨ip + 4, b⟩) := by
  have hlen : (words code ⟨ip + 4, b⟩).length < (code.getD (ip + 3) 0).toNat := by
    rw [length_words hb]
    omega
  rw [block_cons (by omega) hb hop, words_call h hb, Opcode.form, Head.read_call_cut hlen]
  rfl

theorem block_call_short (h : ip < b) (hcut : b ≤ ip + 3) :
    block code ⟨ip, b⟩ = .truncated ip .call [] := by
  have hlen : (words code ⟨ip + 1, b⟩).length < 3 := by
    rw [length_words hb]
    omega
  rw [block_cons h hb hop, Opcode.form, Head.read_call_short hlen, Block.ofHead, if_pos rfl,
    List.drop_eq_nil_of_le (by omega)]

end call

/-- All walks that are left after a place in a stretch. -/
def Before (code : Code) (P : Stretch → ℕ → Prop) (r : Stretch) (ip : ℕ) : Prop :=
  ∀ q jp, q.Holds code jp → q.stop - jp < r.stop - ip → P q jp

/-- What is true at every place of every stretch, shown instruction by instruction. -/
theorem Holds.induction {P : Stretch → ℕ → Prop}
    (done : ∀ {r : Stretch} {ip : ℕ}, r.stop ≤ ip → P r ip)
    (unknown : ∀ {r : Stretch} {ip : ℕ}, r.Holds code ip → ip < r.stop →
      Opcode.ofWord? (code.getD ip 0) = none → P r ip)
    (plain : ∀ {r : Stretch} {ip : ℕ} {op : Opcode} {count : ℕ} {i : UInt32 → Instr},
      r.Holds code ip → ip < r.stop → Before code P r ip →
      Opcode.ofWord? (code.getD ip 0) = some op → op.form.layout = .plain count i → P r ip)
    (condition : ∀ {r : Stretch} {ip : ℕ} {op : Opcode} {leading : ℕ} {t : UInt32 → Test},
      r.Holds code ip → ip < r.stop → Before code P r ip →
      Opcode.ofWord? (code.getD ip 0) = some op → op.form.layout = .condition leading t → P r ip)
    (loop : ∀ {r : Stretch} {ip : ℕ}, r.Holds code ip → ip < r.stop → Before code P r ip →
      Opcode.ofWord? (code.getD ip 0) = some .whileMatched → P r ip)
    (call : ∀ {r : Stretch} {ip : ℕ}, r.Holds code ip → ip < r.stop → Before code P r ip →
      Opcode.ofWord? (code.getD ip 0) = some .call → P r ip)
    {r : Stretch} {ip : ℕ} (hr : r.Holds code ip) : P r ip := by
  -- on what is left of the stretch: a body is a part of it, and so is the rest after an instruction
  induction hn : r.stop - ip using Nat.strong_induction_on generalizing r ip with
  | h n ih =>
    subst hn
    have hbefore : Before code P r ip := fun q jp hq hlt => ih _ hlt hq rfl
    by_cases hip : ip < r.stop
    · cases hop : Opcode.ofWord? (code.getD ip 0) with
      | none => exact unknown hr hip hop
      | some op =>
        cases hl : op.form.layout with
        | plain count i => exact plain hr hip hbefore hop hl
        | condition leading t => exact condition hr hip hbefore hop hl
        | loop => exact loop hr hip hbefore (Opcode.layout_loop hl ▸ hop)
        | call => exact call hr hip hbefore (Opcode.layout_call hl ▸ hop)
    · exact done (by omega)

theorem Before.rest {P : Stretch → ℕ → Prop} (ih : Before code P r ip) (hr : r.Holds code ip)
    {jp : ℕ} (hj : ip < jp) (hjr : jp ≤ r.stop) : P r jp := by
  have hstart := hr.start_le
  exact ih r jp ⟨by omega, hjr, hr.stop_le⟩ (by omega)

theorem Before.body {P : Stretch → ℕ → Prop} (ih : Before code P r ip) (hr : r.Holds code ip)
    (ha : ip < a) (hab : a ≤ b) (hb : b ≤ r.stop) : P ⟨a, b⟩ a := by
  have hshort : b - a < r.stop - ip := by omega
  exact ih ⟨a, b⟩ a ⟨le_rfl, hab, hb.trans hr.stop_le⟩ hshort

end Stretch

namespace Watched

open Stretch

variable {m : Type → Type} [Monad m] {α β : Type} {code : Code} {r : Stretch} {ip : ℕ}
  {fault : m Empty}

theorem advance_eq {next : ℕ} (h : ip < next) (hn : next ≤ r.stop) (walk : Watched m α) :
    advance r ip next walk = walk :=
  if_pos ⟨h, hn⟩

theorem word_eq (hr : r.Holds code ip) {i : ℕ} (hi : ip ≤ i) (h : i < r.stop) :
    (word code r i : Watched m UInt32) = pure (code.getD i 0) := by
  have hstart := hr.start_le
  have hstop := hr.stop_le
  have hcode : i < code.length := by omega
  have hin : r.start ≤ i ∧ i < r.stop := by omega
  rw [word, List.getElem?_eq_getElem hcode, List.getD_eq_getElem _ _ hcode]
  exact if_pos hin

theorem operandAt_eq (hr : r.Holds code ip) {k : ℕ} (h : ip + k < r.stop) :
    operandAt code r ip k fault = pure (code.getD (ip + k) 0) := by
  rw [operandAt, if_pos h, word_eq hr (by omega) h]

theorem argument_eq (hr : r.Holds code ip) {count : ℕ} (hcount : count ≤ 1)
    (h : ip + count < r.stop) :
    argument code r ip count fault = pure (operandOf code ip count) := by
  unfold argument operandOf
  split
  · rfl
  · exact operandAt_eq hr (by omega)

theorem enter_eq (hr : r.Holds code ip) {a b : ℕ} (ha : ip ≤ a) (hab : a ≤ b) (hb : b ≤ r.stop)
    (walk : Watched m α) : enter code r ⟨a, b⟩ walk = walk := by
  have hstart := hr.start_le
  have hstop := hr.stop_le
  have hin : r.start ≤ a ∧ a ≤ b ∧ b ≤ r.stop ∧ b ≤ code.length := by omega
  exact if_pos hin

theorem operandAt_cut {k : ℕ} (h : r.stop ≤ ip + k) : operandAt code r ip k fault = refuse fault :=
  if_neg (by omega)

theorem argument_cut {count : ℕ} (hcount : count ≤ 1) (hip : ip < r.stop)
    (h : r.stop ≤ ip + count) : argument code r ip count fault = refuse fault := by
  obtain rfl : count = 1 := by omega
  exact operandAt_cut h

theorem lift_ite (c : Prop) [Decidable c] (x y : m α) :
    (ExceptT.lift (if c then x else y) : Watched m α) =
      if c then ExceptT.lift x else ExceptT.lift y := by
  split <;> rfl

variable [LawfulMonad m]

theorem lift_bind (x : m α) (f : α → m β) :
    (ExceptT.lift (x >>= f) : Watched m β) = ExceptT.lift x >>= fun a => ExceptT.lift (f a) :=
  ExceptT.ext (by simp)

theorem lift_pure (a : α) : (ExceptT.lift (pure a) : Watched m α) = pure a :=
  ExceptT.ext (by simp)

theorem refuse_bind (f : α → Watched m β) : (refuse fault >>= f) = refuse fault := by
  -- nothing follows a computation without results, so what would follow makes no difference
  have hnone : ∀ g h : Empty → Watched m β, g = h := fun g h => funext fun e => e.elim
  simp only [refuse, lift_bind, bind_assoc]
  congr 1
  exact hnone _ _

section inside

variable (hr : r.Holds code ip)
include hr

/-- A walk that ends with the fault later does so where an operand is missing before. -/
theorem operandAt_bind_refuse {k : ℕ} {f : UInt32 → Watched m β} (hf : ∀ w, f w = refuse fault) :
    operandAt code r ip k fault >>= f = refuse fault := by
  by_cases h : ip + k < r.stop
  · rw [operandAt_eq hr h, pure_bind, hf]
  · rw [operandAt_cut (by omega), refuse_bind]

theorem argument_bind_refuse {count : ℕ} {f : UInt32 → Watched m β}
    (hf : ∀ w, f w = refuse fault) : argument code r ip count fault >>= f = refuse fault := by
  unfold argument
  split
  · rw [pure_bind, hf]
  · exact operandAt_bind_refuse hr hf

theorem each_eq (act : UInt32 → m β) {k n : ℕ} (h : ip + k + n ≤ r.stop) :
    each code r ip fault act k n = ExceptT.lift ((words code ⟨ip + k, ip + k + n⟩).mapM act) := by
  induction n generalizing k with
  | zero => rw [words_nil (by omega), List.mapM_nil, lift_pure, each]
  | succ n ih =>
    have hcode := hr.stop_le
    have hnext : ip + (k + 1) + n = ip + k + (n + 1) := by omega
    rw [words_cons (by omega) (by omega), List.mapM_cons, each, operandAt_eq hr (by omega), pure_bind,
      ih (by omega), hnext]
    simp only [lift_bind, lift_pure]
    rfl

/-- The operands inside the stretch are acted on before the missing one ends it. -/
theorem each_cut (act : UInt32 → m β) {k n : ℕ} (hk : ip + k ≤ r.stop)
    (h : r.stop < ip + k + n) : each code r ip fault act k n =
      ExceptT.lift ((words code ⟨ip + k, r.stop⟩).mapM act) >>= fun _ => refuse fault := by
  induction n generalizing k with
  | zero => omega
  | succ n ih =>
    by_cases hlast : ip + k = r.stop
    · rw [words_nil (by omega), List.mapM_nil, lift_pure, pure_bind, each, operandAt_cut (by omega),
        refuse_bind]
    · rw [words_cons (by omega) hr.stop_le, List.mapM_cons, each, operandAt_eq hr (by omega),
        pure_bind, ih (by omega) (by omega)]
      simp only [lift_bind, lift_pure, bind_assoc, refuse_bind, pure_bind]
      rfl

theorem group_eq {k n : ℕ} (h : ip + k + n ≤ r.stop) :
    (group code r (ip + k) n : Watched m Code) = pure (words code ⟨ip + k, ip + k + n⟩) := by
  induction n generalizing k with
  | zero => rw [words_nil (by omega), group]
  | succ n ih =>
    have hcode := hr.stop_le
    have hnext : ip + (k + 1) + n = ip + k + (n + 1) := by omega
    rw [words_cons (by omega) (by omega), group, word_eq hr (by omega) (by omega), pure_bind,
      Nat.add_assoc, ih (by omega), hnext, pure_bind]

end inside

end Watched
end PegMachine
