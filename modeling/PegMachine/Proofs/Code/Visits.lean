import PegMachine.Code.Listing
import PegMachine.Code.Statistics
import PegMachine.Proofs.Code.Verified

/-! The walks over code that has a height. The check and the listing go into the bodies, the count runs
on from header to header and knows of none. As each body ends just where its instruction says, all of
them come by the same instructions at the same places. -/
namespace PegMachine

variable {ε : Type} {c ws yes no body slots : Code} {op : Opcode} {t : Test} {m n k : UInt32}
  {ip : ℕ}

/-- A visit to an instruction: its place and its opcode. -/
abbrev Visit := ℕ × Opcode

namespace Block

/-- The instructions of the tree in the order of the code. -/
def visits : Block → List Visit
  | .instr ip i rest => (ip, i.opcode) :: rest.visits
  | .branch ip t _ _ yes no rest => (ip, t.opcode) :: (yes.visits ++ (no.visits ++ rest.visits))
  | .loop ip _ body rest => (ip, .whileMatched) :: (body.visits ++ rest.visits)
  | .call ip _ _ _ rest => (ip, .call) :: rest.visits
  | _ => []

/-- The height after the code together with the instructions that the check comes by. -/
def trace (a : Arithmetic ε) : Block → ℤ → Except ε (ℤ × List Visit)
  | .done, h => .ok (h, [])
  | .unknown ip w, _ => a.refuse ⟨ip, .unknown w⟩
  | .truncated ip op slots, h => do
    a.check (need ip op h)
    a.check (needSlots ip h slots)
    a.refuse ⟨ip, .truncated op⟩
  | .branchOverrun ip t _ _, h => do
    a.check (need ip t.opcode h)
    a.refuse ⟨ip, .branchOverrun t.opcode⟩
  | .loopOverrun ip _, h => do
    a.check (need ip .whileMatched h)
    a.refuse ⟨ip, .loopOverrun .whileMatched⟩
  | .instr ip i rest, h => do
    let pops ← a.fit i.pops
    let pushes ← a.fit i.pushes
    let left ← a.fit (h - pops)
    if left < 0 then a.refuse ⟨ip, .underflow i.opcode pops⟩
    else do
      let k ← a.fit (left + pushes)
      let (z, vs) ← rest.trace a k
      pure (z, (ip, i.opcode) :: vs)
  | .branch ip t _ _ yes no rest, h => do
    a.check (need ip t.opcode h)
    let left ← a.fit (h - t.pops)
    let (y, us) ← yes.trace a left
    let (n, vs) ← no.trace a left
    if y = n then do
      let (z, ws) ← rest.trace a y
      pure (z, (ip, t.opcode) :: (us ++ (vs ++ ws)))
    else a.refuse ⟨ip, .unequal t.opcode y n⟩
  | .loop ip _ body rest, h => do
    a.check (need ip .whileMatched h)
    let (k, us) ← body.trace a h
    if k = h then do
      let (z, vs) ← rest.trace a h
      pure (z, (ip, .whileMatched) :: (us ++ vs))
    else a.refuse ⟨ip, .drift h k⟩
  | .call ip _ pops slots rest, h => do
    a.check (needSlots ip h slots)
    if h < signed pops then a.refuse ⟨ip, .short .call (signed pops) h⟩
    else do
      let left ← a.fit (h - signed pops)
      let k ← a.fit (left + 1)
      let (z, vs) ← rest.trace a k
      pure (z, (ip, .call) :: vs)

/-- Keeping the instructions leaves the check as it is, and a check that succeeds leaves none out. -/
theorem trace_eq (a : Arithmetic ε) (b : Block) (h : ℤ) :
    b.trace a h = (fun z => (z, b.visits)) <$> b.heightIn a h := by
  induction b generalizing h with
  | done | unknown => rfl
  | truncated | branchOverrun | loopOverrun =>
    simp only [trace, heightIn, map_bind]
    rfl
  | instr ip i rest ih =>
    simp only [trace, heightIn, ih, map_bind, bind_map_left]
    refine bind_congr fun pops => bind_congr fun pushes => bind_congr fun left => ?_
    split
    · rfl
    · rw [map_bind]
      rfl
  | branch ip t m n yes no rest ihy ihn ih =>
    simp only [trace, heightIn, ihy, ihn, ih, map_bind, bind_map_left]
    refine bind_congr fun _ => bind_congr fun left => bind_congr fun y => bind_congr fun z => ?_
    split <;> rfl
  | loop ip n body rest ihb ih =>
    simp only [trace, heightIn, ihb, ih, map_bind, bind_map_left]
    refine bind_congr fun _ => bind_congr fun k => ?_
    split <;> rfl
  | call ip f pops slots rest ih =>
    simp only [trace, heightIn, ih, map_bind, bind_map_left]
    refine bind_congr fun _ => ?_
    split
    · rfl
    · simp only [map_bind]
      rfl

end Block

namespace Code

/-- Code that is put together from instructions with all their operands and from tests, loops and
calls whose bodies and slots are as long as they say. -/
inductive Complete : Code → Prop
  | nil : Complete []
  | instr (i : Instr) {c : Code} (hc : Complete c) : Complete (i.words ++ c)
  | branch (t : Test) {m n : UInt32} {yes no c : Code} (hm : m.toNat = yes.length)
      (hn : n.toNat = no.length) (hy : Complete yes) (hno : Complete no) (hc : Complete c) :
      Complete (t.words ++ m :: n :: (yes ++ (no ++ c)))
  | loop {n : UInt32} {body c : Code} (hn : n.toNat = body.length) (hb : Complete body)
      (hc : Complete c) : Complete (Opcode.whileMatched.word :: n :: (body ++ c))
  | call (f pops : UInt32) {k : UInt32} {slots c : Code} (hk : k.toNat = slots.length)
      (hc : Complete c) : Complete (Opcode.call.word :: f :: pops :: k :: (slots ++ c))

/-- No tree that is broken off has the property, and the parts of a tree that has it have it, too. -/
structure Unbroken (P : Block → Prop) : Prop where
  unknown : ∀ ip w, ¬ P (.unknown ip w)
  truncated : ∀ ip op slots, ¬ P (.truncated ip op slots)
  branchOverrun : ∀ ip t a b, ¬ P (.branchOverrun ip t a b)
  loopOverrun : ∀ ip a, ¬ P (.loopOverrun ip a)
  instr : ∀ {ip i rest}, P (.instr ip i rest) → P rest
  branch : ∀ {ip t a b yes no rest}, P (.branch ip t a b yes no rest) →
    P yes ∧ (0 < b → P no) ∧ P rest
  loop : ∀ {ip a body rest}, P (.loop ip a body rest) → P body ∧ P rest
  call : ∀ {ip f pops slots rest}, P (.call ip f pops slots rest) → P rest

/-- Code is complete if its tree has a property that no tree has which is broken off. -/
theorem Complete.of_unbroken {P : Block → Prop} (hP : Unbroken P) (hr : P (Block.read ip c)) :
    Complete c := by
  fun_induction Block.read ip c with
  | case1 ip => exact .nil
  | case2 ip w args hop => exact (hP.unknown _ _ hr).elim
  | case3 ip w args op hop hhead => exact (hP.truncated _ _ _ hr).elim
  | case4 ip w args op hop i ws hhead ih =>
    obtain rfl := Opcode.ofWord?_eq_some_iff.mp hop
    have hc : op.word :: args = i.words ++ ws := Head.read_spells hhead
    rw [hc]
    exact .instr i (ih (hP.instr hr))
  | case5 ip w args op hop t a b ws hhead start hlen ihy ihn =>
    rename_i ih
    obtain rfl := Opcode.ofWord?_eq_some_iff.mp hop
    obtain ⟨m, n, rfl, rfl, hc⟩ := Head.read_spells hhead
    obtain ⟨hy, hn, hrest⟩ := hP.branch hr
    have hno : Complete ((ws.drop m.toNat).take n.toNat) := by
      rcases Nat.eq_zero_or_pos n.toNat with hzero | hpos
      · rw [hzero, List.take_zero]
        exact .nil
      · exact ihn (hn hpos)
    have hws : ws = ws.take m.toNat ++ ((ws.drop m.toNat).take n.toNat ++
        ws.drop (m.toNat + n.toNat)) := by
      rw [← List.drop_drop, List.take_append_drop, List.take_append_drop]
    rw [hc, hws]
    refine .branch t ?_ ?_ (ihy hy) hno (ih hrest)
    · rw [List.length_take]
      omega
    · rw [List.length_take, List.length_drop]
      omega
  | case6 => exact (hP.branchOverrun _ _ _ _ hr).elim
  | case7 ip w args op hop a ws hhead hlen ihb ih =>
    obtain rfl := Opcode.ofWord?_eq_some_iff.mp hop
    obtain ⟨n, rfl, hc⟩ := Head.read_spells hhead
    obtain ⟨hb, hrest⟩ := hP.loop hr
    have hws : ws = ws.take n.toNat ++ ws.drop n.toNat := (List.take_append_drop ..).symm
    rw [hc, hws]
    refine .loop ?_ (ihb hb) (ih hrest)
    rw [List.length_take]
    omega
  | case8 => exact (hP.loopOverrun _ _ hr).elim
  | case9 ip w args op hop f p slots ws hhead ih =>
    obtain rfl := Opcode.ofWord?_eq_some_iff.mp hop
    obtain ⟨k, hk, hc⟩ := Head.read_spells hhead
    rw [hc]
    exact .call f p hk (ih (hP.call hr))

theorem unbroken_height (a : Arithmetic ε) : Unbroken fun b => ∃ h z, b.heightIn a h = .ok z where
  unknown ip w := by
    rintro ⟨h, z, hr⟩
    cases hr
  truncated ip op slots := by
    rintro ⟨h, z, hr⟩
    obtain ⟨_, -, hr⟩ := except_bind_eq_ok.mp hr
    obtain ⟨_, -, hr⟩ := except_bind_eq_ok.mp hr
    cases hr
  branchOverrun ip t m n := by
    rintro ⟨h, z, hr⟩
    obtain ⟨_, -, hr⟩ := except_bind_eq_ok.mp hr
    cases hr
  loopOverrun ip n := by
    rintro ⟨h, z, hr⟩
    obtain ⟨_, -, hr⟩ := except_bind_eq_ok.mp hr
    cases hr
  instr := by
    rintro ip i rest ⟨h, z, hr⟩
    obtain ⟨pops, -, hr⟩ := except_bind_eq_ok.mp hr
    obtain ⟨pushes, -, hr⟩ := except_bind_eq_ok.mp hr
    obtain ⟨left, -, hr⟩ := except_bind_eq_ok.mp hr
    split at hr
    · cases hr
    · obtain ⟨k, -, hr⟩ := except_bind_eq_ok.mp hr
      exact ⟨_, _, hr⟩
  branch := by
    rintro ip t m n yes no rest ⟨h, z, hr⟩
    obtain ⟨_, -, hr⟩ := except_bind_eq_ok.mp hr
    obtain ⟨left, -, hr⟩ := except_bind_eq_ok.mp hr
    obtain ⟨y, hy, hr⟩ := except_bind_eq_ok.mp hr
    obtain ⟨z', hn, hr⟩ := except_bind_eq_ok.mp hr
    split at hr
    · exact ⟨⟨_, _, hy⟩, fun _ => ⟨_, _, hn⟩, _, _, hr⟩
    · cases hr
  loop := by
    rintro ip n body rest ⟨h, z, hr⟩
    obtain ⟨_, -, hr⟩ := except_bind_eq_ok.mp hr
    obtain ⟨k, hb, hr⟩ := except_bind_eq_ok.mp hr
    split at hr
    · exact ⟨⟨_, _, hb⟩, _, _, hr⟩
    · cases hr
  call := by
    rintro ip f pops slots rest ⟨h, z, hr⟩
    obtain ⟨_, -, hr⟩ := except_bind_eq_ok.mp hr
    split at hr
    · cases hr
    · obtain ⟨left, -, hr⟩ := except_bind_eq_ok.mp hr
      obtain ⟨k, -, hr⟩ := except_bind_eq_ok.mp hr
      exact ⟨_, _, hr⟩

/-- Code that has a height, in whatever arithmetic and from whatever height before it, is complete. -/
theorem Complete.of_height {a : Arithmetic ε} {h z : ℤ} (hr : (Block.read 0 c).heightIn a h = .ok z) :
    Complete c :=
  .of_unbroken (unbroken_height a) ⟨h, z, hr⟩

end Code

namespace Block

theorem read_test (hm : m.toNat = yes.length) (hn : n.toNat = no.length) (ip : ℕ) (ws : Code) :
    read ip (t.words ++ m :: n :: (yes ++ (no ++ ws))) = .branch ip t yes.length no.length
      (read (ip + 3 + t.operands.length) yes)
      (read (ip + 3 + t.operands.length + yes.length) no)
      (read (ip + 3 + t.operands.length + yes.length + no.length) ws) := by
  have hbranch : Code.branch t.words yes no = .ok (t.words ++ m :: n :: (yes ++ no)) :=
    Code.branch_eq_ok hm hn
  have hread := read_branch_at hbranch ip ws
  have hlen : ip + (t.words ++ m :: n :: (yes ++ no)).length =
      ip + 3 + t.operands.length + yes.length + no.length := by
    simp only [Test.words, List.length_append, List.length_cons]
    omega
  simpa only [List.append_assoc, List.cons_append, hlen] using hread

theorem read_while (hn : n.toNat = body.length) (ip : ℕ) (ws : Code) :
    read ip (Opcode.whileMatched.word :: n :: (body ++ ws)) =
      .loop ip body.length (read (ip + 2) body) (read (ip + 2 + body.length) ws) := by
  have hloop : Code.loop (Code.op .whileMatched) body = .ok (Code.op .whileMatched ++ n :: body) :=
    Code.loop_eq_ok hn
  have hread := read_loop_at hloop ip ws
  have hlen : ip + (Code.op .whileMatched ++ n :: body).length = ip + 2 + body.length := by
    simp only [Code.op, List.length_append, List.length_cons, List.length_nil]
    omega
  rw [hlen] at hread
  exact hread

theorem read_call_cons {f pops : UInt32} (hk : k.toNat = slots.length) (ip : ℕ) (ws : Code) :
    read ip (Opcode.call.word :: f :: pops :: k :: (slots ++ ws)) =
      .call ip f pops slots (read (ip + 4 + slots.length) ws) := by
  have hread := read_call (f := f) (n := pops) hk ip ws
  rw [Nat.add_comm slots.length, ← Nat.add_assoc] at hread
  exact hread

end Block

/-- A visit that the line tells of. -/
def Line.visit? : Line → Option Visit
  | .entry _ ip op _ _ => some (ip, op)
  | _ => none

/-- The line stands over one of the bodies of a test. -/
def Line.IsHeading (l : Line) : Prop := ∃ d, l = .mark d "then:" ∨ l = .mark d "else:"

namespace Code

/-- The entries of the listing are the instructions of the tree. -/
theorem Complete.filterMap_lines (hc : c.Complete) (consts : List Constant) (ip d : ℕ) :
    ((Block.read ip c).lines consts d).filterMap Line.visit? = (Block.read ip c).visits := by
  induction hc generalizing ip d with
  | nil =>
    rw [Block.read_nil]
    rfl
  | instr i hc ih =>
    rw [Block.read_instr]
    simp [Block.lines, Block.visits, Line.visit?, ih]
  | branch t hm hn hy hno hc ihy ihn ih =>
    rw [Block.read_test hm hn]
    simp only [Block.lines, Block.visits, Block.testLine, Line.visit?, List.cons_append,
      List.filterMap_cons, List.filterMap_append, ihy, ih, List.append_assoc]
    split
    · simp only [List.filterMap_cons, Line.visit?, ihn]
    · next hempty =>
      obtain rfl := List.length_eq_zero_iff.mp (Nat.eq_zero_of_not_pos hempty)
      simp [Block.read_nil, Block.visits]
  | loop hn hb hc ihb ih =>
    rw [Block.read_while hn]
    simp [Block.lines, Block.visits, Block.loopLine, Line.visit?, ihb, ih]
  | @call f pops k slots c hk hc ih =>
    rw [Block.read_call_cons hk]
    simp [Block.lines, Block.visits, Line.visit?, ih]

/-- What else stands in the listing are headings. -/
theorem Complete.isHeading (hc : c.Complete) (consts : List Constant) (ip d : ℕ) :
    ∀ l ∈ (Block.read ip c).lines consts d, l.visit? = none → l.IsHeading := by
  induction hc generalizing ip d with
  | nil =>
    rw [Block.read_nil]
    simp [Block.lines]
  | instr i hc ih =>
    rw [Block.read_instr]
    exact List.forall_mem_cons.mpr ⟨by simp [Line.visit?], ih _ d⟩
  | branch t hm hn hy hno hc ihy ihn ih =>
    rw [Block.read_test hm hn]
    simp only [Block.lines, List.cons_append, List.forall_mem_cons, List.forall_mem_append]
    refine ⟨nofun, fun _ => ⟨d, .inl rfl⟩, ⟨ihy _ _, ?_⟩, ih _ d⟩
    split
    · exact List.forall_mem_cons.mpr ⟨fun _ => ⟨d, .inr rfl⟩, ihn _ _⟩
    · simp
  | loop hn hb hc ihb ih =>
    rw [Block.read_while hn]
    simp only [Block.lines, List.cons_append, List.forall_mem_cons, List.forall_mem_append]
    exact ⟨nofun, ihb _ _, ih _ d⟩
  | @call f pops k slots c hk hc ih =>
    rw [Block.read_call_cons hk]
    exact List.forall_mem_cons.mpr ⟨nofun, ih _ d⟩

theorem unbroken_lines (consts : List Constant) :
    Unbroken fun b => ∃ d, ∀ l ∈ b.lines consts d, l.visit? = none → l.IsHeading where
  unknown ip w := by
    rintro ⟨d, hl⟩
    simpa [Line.IsHeading] using hl (.unknown d ip w) (by simp [Block.lines]) rfl
  truncated ip op slots := by
    rintro ⟨d, hl⟩
    simpa [Line.IsHeading] using hl (.truncated d ip op) (by simp [Block.lines]) rfl
  branchOverrun ip t a b := by
    rintro ⟨d, hl⟩
    simpa [Line.IsHeading] using hl (.mark d "<bodies overrun span>") (by simp [Block.lines]) rfl
  loopOverrun ip a := by
    rintro ⟨d, hl⟩
    simpa [Line.IsHeading] using hl (.mark d "<body overruns span>") (by simp [Block.lines]) rfl
  instr := by
    rintro ip i rest ⟨d, hl⟩
    exact ⟨d, (List.forall_mem_cons.mp hl).2⟩
  branch := by
    rintro ip t a b yes no rest ⟨d, hl⟩
    simp only [Block.lines, List.cons_append, List.forall_mem_cons, List.forall_mem_append] at hl
    obtain ⟨-, -, ⟨hy, hn⟩, hrest⟩ := hl
    refine ⟨⟨_, hy⟩, fun hpos => ?_, _, hrest⟩
    rw [if_pos hpos] at hn
    exact ⟨_, (List.forall_mem_cons.mp hn).2⟩
  loop := by
    rintro ip a body rest ⟨d, hl⟩
    simp only [Block.lines, List.cons_append, List.forall_mem_cons, List.forall_mem_append] at hl
    obtain ⟨-, hb, hrest⟩ := hl
    exact ⟨⟨_, hb⟩, _, hrest⟩
  call := by
    rintro ip f pops slots rest ⟨d, hl⟩
    exact ⟨d, (List.forall_mem_cons.mp hl).2⟩

/-- The instructions that the count comes by. Its steps go over operands, not over bodies. -/
def headers (ip : ℕ) (code : Code) : List Visit :=
  match code with
  | [] => []
  | w :: args =>
    match Opcode.ofWord? w with
    | none => []
    | some op =>
      (ip, op) :: match op.shape.span args with
        | none => []
        | some n => headers (ip + 1 + n) (args.drop n)
termination_by code.length
decreasing_by
  rw [List.length_drop, List.length_cons]
  omega

/-- The count counts the headers. -/
theorem opcodes_eq (ip : ℕ) (c : Code) : c.opcodes = (headers ip c).map Prod.snd := by
  fun_induction headers ip c with
  | case1 => rw [opcodes, List.map_nil]
  | case2 ip w args hop => rw [opcodes, hop, List.map_nil]
  | case3 ip w args op hop ih =>
    rw [opcodes, hop]
    simp only
    cases hspan : op.shape.span args with
    | none => rfl
    | some n => exact congrArg (op :: ·) (ih n)

theorem headers_lt (ip : ℕ) (c : Code) :
    (headers ip c).Pairwise (fun a b => a.1 < b.1) ∧ ∀ v ∈ headers ip c, ip ≤ v.1 := by
  fun_induction headers ip c with
  | case1 => simp
  | case2 => simp
  | case3 ip w args op hop ih =>
    cases hspan : op.shape.span args with
    | none => simp
    | some n =>
      obtain ⟨hpairs, hle⟩ := ih n
      refine ⟨List.pairwise_cons.mpr ⟨?_, hpairs⟩, List.forall_mem_cons.mpr ⟨le_refl ip, ?_⟩⟩
      · intro v hv
        have := hle v hv
        omega
      · intro v hv
        have := hle v hv
        omega

theorem headers_cons {args : Code} {n : ℕ} (h : op.shape.span args = some n) (ip : ℕ) :
    headers ip (op.word :: args) = (ip, op) :: headers (ip + 1 + n) (args.drop n) := by
  rw [headers, Opcode.ofWord?_word]
  simp [h]

theorem headers_instr (i : Instr) (ip : ℕ) (ws : Code) :
    headers ip (i.words ++ ws) = (ip, i.opcode) :: headers (ip + i.words.length) ws := by
  have hspan : i.opcode.shape.span (i.operands ++ ws) = some i.operands.length := by
    cases i <;> rfl
  rw [Instr.words, List.cons_append, headers_cons hspan, List.drop_left, List.length_cons,
    Nat.add_assoc, Nat.add_comm 1]

theorem headers_test (t : Test) (m n : UInt32) (ip : ℕ) (ws : Code) :
    headers ip (t.words ++ m :: n :: ws) =
      (ip, t.opcode) :: headers (ip + 3 + t.operands.length) ws := by
  have hspan : t.opcode.shape.span (t.operands ++ m :: n :: ws) = some (t.operands.length + 2) := by
    cases t <;> rfl
  have hplace : ip + 1 + (t.operands.length + 2) = ip + 3 + t.operands.length := by omega
  rw [Test.words, List.cons_append, headers_cons hspan, hplace, List.drop_length_add_append]
  rfl

theorem headers_while (n : UInt32) (ip : ℕ) (ws : Code) :
    headers ip (Opcode.whileMatched.word :: n :: ws) =
      (ip, .whileMatched) :: headers (ip + 2) ws := by
  have hspan : Opcode.whileMatched.shape.span (n :: ws) = some 1 := rfl
  exact headers_cons hspan ip

theorem headers_call (f pops : UInt32) (hk : k.toNat = slots.length) (ip : ℕ) (ws : Code) :
    headers ip (Opcode.call.word :: f :: pops :: k :: (slots ++ ws)) =
      (ip, .call) :: headers (ip + 4 + slots.length) ws := by
  have hspan : Opcode.call.shape.span (f :: pops :: k :: (slots ++ ws)) = some (3 + slots.length) := by
    rw [← hk]
    rfl
  have hplace : ip + 1 + (3 + slots.length) = ip + 4 + slots.length := by omega
  rw [headers_cons hspan, hplace, Nat.add_comm 3]
  simp

/-- The flat walk comes by the instructions of the tree, and goes on with what follows the code. -/
theorem Complete.headers_append (hc : c.Complete) (ip : ℕ) (ws : Code) :
    headers ip (c ++ ws) = (Block.read ip c).visits ++ headers (ip + c.length) ws := by
  induction hc generalizing ip ws with
  | nil =>
    rw [Block.read_nil]
    rfl
  | instr i hc ih =>
    rw [List.append_assoc, headers_instr, ih, Block.read_instr, List.length_append]
    simp [Block.visits, Nat.add_assoc]
  | @branch t m n yes no c hm hn hy hno hc ihy ihn ih =>
    have hwords : t.words ++ m :: n :: (yes ++ (no ++ c)) ++ ws =
        t.words ++ m :: n :: (yes ++ (no ++ (c ++ ws))) := by simp
    have hend : ip + (t.words ++ m :: n :: (yes ++ (no ++ c))).length =
        ip + 3 + t.operands.length + yes.length + no.length + c.length := by
      simp only [Test.words, List.length_append, List.length_cons]
      omega
    rw [hwords, headers_test, ihy, ihn, ih, Block.read_test hm hn, hend]
    simp [Block.visits]
  | @loop n body c hn hb hc ihb ih =>
    have hend : ip + (Opcode.whileMatched.word :: n :: (body ++ c)).length =
        ip + 2 + body.length + c.length := by
      simp only [List.length_append, List.length_cons]
      omega
    rw [List.cons_append, List.cons_append, List.append_assoc, headers_while, ihb, ih,
      Block.read_while hn, hend]
    simp [Block.visits]
  | @call f pops k slots c hk hc ih =>
    have hend : ip + (Opcode.call.word :: f :: pops :: k :: (slots ++ c)).length =
        ip + 4 + slots.length + c.length := by
      simp only [List.length_append, List.length_cons]
      omega
    have hwords : Opcode.call.word :: f :: pops :: k :: (slots ++ c) ++ ws =
        Opcode.call.word :: f :: pops :: k :: (slots ++ (c ++ ws)) := by simp
    rw [hwords, headers_call f pops hk, ih, Block.read_call_cons hk, hend]
    rfl

theorem Complete.headers_eq (hc : c.Complete) (ip : ℕ) :
    headers ip c = (Block.read ip c).visits := by
  have h := hc.headers_append ip []
  rw [List.append_nil] at h
  rw [h, headers, List.append_nil]

end Code

namespace Opcode

theorem mem_all (op : Opcode) : op ∈ all := by
  cases op <;> decide

theorem nodup_mnemonics : (all.map mnemonic).Nodup := by
  decide +kernel

theorem mnemonic_injective : Function.Injective mnemonic := by
  intro a b h
  exact List.inj_on_of_nodup_map nodup_mnemonics a.mem_all b.mem_all h

/-- In a list, each element is one of the opcodes. -/
theorem sum_count (ops : List Opcode) : (all.map fun op => ops.count op).sum = ops.length := by
  induction ops with
  | nil => rfl
  | cons a ops ih =>
    have hone : (all.map fun op => if a == op then 1 else 0).sum = 1 := by
      cases a <;> rfl
    simp only [List.count_cons, List.sum_map_add, ih, hone, List.length_cons]

end Opcode

namespace Program

variable {p : Program}

/-- The counts before they are put in order. -/
theorem frequencies_perm :
    p.frequencies.Perm (Opcode.all.filterMap fun op =>
      if p.opcodes.count op = 0 then none else some (op, p.opcodes.count op)) :=
  List.mergeSort_perm _ _

/-- The opcodes that occur are counted, each as often as it occurs. -/
theorem mem_frequencies {n : ℕ} : (op, n) ∈ p.frequencies ↔ n = p.opcodes.count op ∧ 0 < n := by
  rw [frequencies_perm.mem_iff, List.mem_filterMap]
  constructor
  · rintro ⟨a, -, ha⟩
    split at ha
    · cases ha
    · obtain ⟨rfl, rfl⟩ := Prod.mk.inj (Option.some.inj ha)
      exact ⟨rfl, by omega⟩
  · rintro ⟨rfl, hpos⟩
    exact ⟨op, op.mem_all, if_neg (by omega)⟩

/-- No mnemonic is counted twice. -/
theorem nodup_frequencies : (p.frequencies.map fun f => f.1.mnemonic).Nodup := by
  have hsub : ∀ ops : List Opcode, ((ops.filterMap fun op =>
      if p.opcodes.count op = 0 then none else some (op, p.opcodes.count op)).map
        fun f => f.1.mnemonic).Sublist (ops.map Opcode.mnemonic) := by
    intro ops
    induction ops with
    | nil => exact .slnil
    | cons op ops ih =>
      by_cases hop : p.opcodes.count op = 0
      · simpa [hop] using ih.cons _
      · simpa [hop] using ih.cons_cons op.mnemonic
  rw [(frequencies_perm.map _).nodup_iff]
  exact (hsub _).nodup Opcode.nodup_mnemonics

/-- The counts add up to the number of opcodes. -/
theorem sum_frequencies : (p.frequencies.map Prod.snd).sum = p.opcodes.length := by
  rw [(frequencies_perm.map Prod.snd).sum_eq, ← Opcode.sum_count]
  induction Opcode.all with
  | nil => rfl
  | cons op ops ih =>
    by_cases hop : p.opcodes.count op = 0
    · simpa [hop] using ih
    · simpa [hop] using ih

end Program

/-- The check, the listing and the count agree on code that has a height, in whatever arithmetic and
whatever the height before it. With `I` the instructions that the check comes by, the listing has an entry
for each of them in the order of their places, and else only the headings of bodies. The count walks over
just these, and finds each opcode as often as it occurs among them. -/
theorem Code.walks_agree (a : Arithmetic ε) {code : Code} {h z : ℤ} (hz : code.heightIn a h = .ok z) :
    ∃ I : List Visit, (Block.read 0 code).trace a h = .ok (z, I) ∧
      I.Pairwise (fun v w => v.1 < w.1) ∧
      (∀ consts : List Constant, ∃ ls, ls = (Block.read 0 code).lines consts 0 ∧
        code.listing consts = Line.renderAll ls ∧ ls.filterMap Line.visit? = I ∧
        ∀ l ∈ ls, l.visit? = none → l.IsHeading) ∧
      code.headers 0 = I ∧ code.opcodes = I.map Prod.snd ∧
      ∀ (name : String) (consts : List Constant),
        let counts := (⟨[⟨name, code⟩], consts⟩ : Program).frequencies
        (∀ op n, (op, n) ∈ counts ↔ n = (I.map Prod.snd).count op ∧ 0 < n) ∧
        (counts.map fun f => f.1.mnemonic).Nodup ∧ (counts.map Prod.snd).sum = I.length := by
  have hc := Complete.of_height hz
  have hheaders := hc.headers_eq 0
  have hopcodes : code.opcodes = (Block.read 0 code).visits.map Prod.snd := by
    rw [opcodes_eq 0, hheaders]
  refine ⟨(Block.read 0 code).visits, ?_, ?_, ?_, hheaders, hopcodes, ?_⟩
  · rw [Block.trace_eq, show (Block.read 0 code).heightIn a h = .ok z from hz]
    rfl
  · rw [← hheaders]
    exact (headers_lt 0 code).1
  · intro consts
    exact ⟨_, rfl, rfl, hc.filterMap_lines consts 0 0, hc.isHeading consts 0 0⟩
  · intro name consts counts
    have hone : (⟨[⟨name, code⟩], consts⟩ : Program).opcodes =
        (Block.read 0 code).visits.map Prod.snd := by
      rw [← hopcodes]
      exact List.append_nil _
    refine ⟨?_, Program.nodup_frequencies, ?_⟩
    · intro op n
      rw [← hone]
      exact Program.mem_frequencies
    · rw [Program.sum_frequencies, hone, List.length_map]

/-- A height that goes round the range of 32 bits and comes back, then a loop inside a test without a
second body, then a call with a slot that is also an opcode. A check that lets no height go round stops. -/
theorem Code.walks_agree_nested :
    let code : Code := [4, 0x80000001, 0, 0, 4, 0x80000000, 0, 0, 10, 4, 0, 14, 2, 1, 2, 24, 0, 1, 1, 0]
    let I : List Visit := [(0, .popN), (2, .push), (4, .popN), (6, .push), (8, .ifFailed),
      (11, .whileMatched), (13, .pushPos), (14, .pop), (15, .call)]
    code.heightIn .wrapping 0 = .ok 1 ∧ code.heightIn .trapping 0 = .error .overflow ∧
      (Block.read 0 code).trace .wrapping 0 = .ok (1, I) ∧ code.headers 0 = I ∧
      ((Block.read 0 code).lines [] 0).filterMap Line.visit? = I := by
  intro code I
  have hz : code.heightIn .wrapping 0 = .ok 1 := by decide +kernel
  have htrace : (Block.read 0 code).trace .wrapping 0 = .ok (1, I) := by decide +kernel
  obtain ⟨J, hJ, -, hlines, hheaders, -⟩ := walks_agree .wrapping hz
  obtain ⟨-, rfl⟩ := Prod.mk.inj (Except.ok.inj (htrace.symm.trans hJ))
  obtain ⟨ls, rfl, -, hvisits, -⟩ := hlines []
  exact ⟨hz, by decide +kernel, htrace, hheaders, hvisits⟩

end PegMachine
