import PegMachine.Code.Height
import PegMachine.Code.Listing
import PegMachine.Proofs.Code.Stretches

/-! The check and the listing as walks by place. The check asks for operand after operand and passes over
those that have no bearing on the height; the listing asks for the operands of an instruction together.
Neither breaks out of the stretch it is in, whatever the words, and both come to the same as the walks over
the tree. -/
namespace PegMachine.Stretch

open Watched

/-! The check. -/

variable {ε : Type}

/-- The height after the rest of a stretch, from place `ip` on. -/
def heightIn (a : Arithmetic ε) (code : Code) (r : Stretch) (ip : ℕ) (h : ℤ) : Watched (Except ε) ℤ :=
  if ip < r.stop then do
    let w ← word code r ip
    match Opcode.ofWord? w with
    | none => refuse (a.refuse ⟨ip, .unknown w⟩)
    | some op =>
      match op.form.layout with
      | .plain count i => do
        let arg ← argument code r ip count (a.refuse ⟨ip, .truncated op⟩)
        let pops ← ExceptT.lift (a.fit (i arg).pops)
        let pushes ← ExceptT.lift (a.fit (i arg).pushes)
        let left ← ExceptT.lift (a.fit (h - pops))
        if left < 0 then refuse (a.refuse ⟨ip, .underflow op pops⟩)
        else do
          let k ← ExceptT.lift (a.fit (left + pushes))
          advance r ip (ip + 1 + count) <| heightIn a code r (ip + 1 + count) k
      | .condition leading t => do
        -- what the test compares with is not read: it takes as much from the stack whatever that is
        ExceptT.lift (a.check (Block.need ip op h))
        let yes ← operandAt code r ip (leading + 1) (a.refuse ⟨ip, .truncated op⟩)
        let no ← operandAt code r ip (leading + 2) (a.refuse ⟨ip, .truncated op⟩)
        let start := ip + leading + 3
        if start + yes.toNat + no.toNat ≤ r.stop then do
          let left ← ExceptT.lift (a.fit (h - (t 0).pops))
          let y ← enter code r ⟨start, start + yes.toNat⟩ <|
            heightIn a code ⟨start, start + yes.toNat⟩ start left
          let n ← enter code r ⟨start + yes.toNat, start + yes.toNat + no.toNat⟩ <|
            heightIn a code ⟨start + yes.toNat, start + yes.toNat + no.toNat⟩ (start + yes.toNat) left
          if y = n then
            advance r ip (start + yes.toNat + no.toNat) <|
              heightIn a code r (start + yes.toNat + no.toNat) y
          else refuse (a.refuse ⟨ip, .unequal op y n⟩)
        else refuse (a.refuse ⟨ip, .branchOverrun op⟩)
      | .loop => do
        ExceptT.lift (a.check (Block.need ip op h))
        let n ← operandAt code r ip 1 (a.refuse ⟨ip, .truncated op⟩)
        if ip + 2 + n.toNat ≤ r.stop then do
          let k ← enter code r ⟨ip + 2, ip + 2 + n.toNat⟩ <|
            heightIn a code ⟨ip + 2, ip + 2 + n.toNat⟩ (ip + 2) h
          if k = h then
            advance r ip (ip + 2 + n.toNat) <| heightIn a code r (ip + 2 + n.toNat) h
          else refuse (a.refuse ⟨ip, .drift h k⟩)
        else refuse (a.refuse ⟨ip, .loopOverrun op⟩)
      | .call => do
        let pops ← operandAt code r ip 2 (a.refuse ⟨ip, .truncated op⟩)
        let n ← operandAt code r ip 3 (a.refuse ⟨ip, .truncated op⟩)
        let _ ← each code r ip (a.refuse ⟨ip, .truncated op⟩)
          (fun s => a.check (Block.needSlots ip h [s])) 4 n.toNat
        if h < signed pops then refuse (a.refuse ⟨ip, .short op (signed pops) h⟩)
        else do
          let left ← ExceptT.lift (a.fit (h - signed pops))
          let k ← ExceptT.lift (a.fit (left + 1))
          advance r ip (ip + 4 + n.toNat) <| heightIn a code r (ip + 4 + n.toNat) k
  else pure h
termination_by r.stop - ip

/-- The walk by place comes to the same as the walk over the tree. -/
def Checks (a : Arithmetic ε) (code : Code) (r : Stretch) (ip : ℕ) : Prop :=
  ∀ h, heightIn a code r ip h = ExceptT.lift ((block code ⟨ip, r.stop⟩).heightIn a h)

variable {a : Arithmetic ε} {code : Code} {r : Stretch} {ip : ℕ} {op : Opcode}

theorem check_needSlots (a : Arithmetic ε) (ip : ℕ) (h : ℤ) (ss : Code) :
    a.check (Block.needSlots ip h ss) =
      ss.mapM (fun s => a.check (Block.needSlots ip h [s])) >>= fun _ => pure () := by
  induction ss with
  | nil => rfl
  | cons s ss ih =>
    rw [List.mapM_cons, Block.needSlots, Block.needSlots]
    split
    · rfl
    · rw [ih]
      simp only [Block.needSlots, bind_assoc, pure_bind]
      rfl

theorem need_plain {ip count : ℕ} {i : UInt32 → Instr} (hl : op.form.layout = .plain count i)
    (h : ℤ) : Block.need ip op h = .ok () := by
  cases op <;> cases hl <;> rfl

theorem pops_condition {leading : ℕ} {t : UInt32 → Test}
    (hl : op.form.layout = .condition leading t) (v w : UInt32) : (t v).pops = (t w).pops := by
  cases op <;> cases hl <;> rfl

section step

variable {count : ℕ} {i : UInt32 → Instr} {t : UInt32 → Test} (hr : r.Holds code ip) (hip : ip < r.stop)
  (ih : Before code (Checks a code) r ip)
include hr ih

theorem heightIn_rest {jp : ℕ} (hj : ip < jp) (hjr : jp ≤ r.stop) (h : ℤ) :
    advance r ip jp (heightIn a code r jp h) =
      ExceptT.lift ((block code ⟨jp, r.stop⟩).heightIn a h) := by
  rw [advance_eq hj hjr]
  exact ih.rest hr hj hjr h

theorem heightIn_body {b c : ℕ} (hb : ip < b) (hbc : b ≤ c) (hc : c ≤ r.stop) (h : ℤ) :
    enter code r ⟨b, c⟩ (heightIn a code ⟨b, c⟩ b h) =
      ExceptT.lift ((block code ⟨b, c⟩).heightIn a h) := by
  rw [enter_eq hr hb.le hbc hc]
  exact ih.body hr hb hbc hc h

include hip

theorem checks_plain (hop : Opcode.ofWord? (code.getD ip 0) = some op)
    (hl : op.form.layout = .plain count i) :
    Checks a code r ip := by
  have hb := hr.stop_le
  obtain ⟨hcount, hi⟩ := Opcode.layout_plain hl
  intro h
  rw [heightIn, if_pos hip, word_eq hr le_rfl hip, pure_bind, hop]
  simp only [hl]
  by_cases hin : ip + count < r.stop
  · rw [block_plain hl hop hb hin, argument_eq hr hcount hin, pure_bind, Block.heightIn, (hi _).1]
    simp only [lift_bind, lift_ite, heightIn_rest hr ih (show ip < ip + 1 + count by omega)
      (show ip + 1 + count ≤ r.stop by omega)]
    rfl
  · rw [block_plain_cut hl hop hb hip (by omega), argument_cut hcount hip (by omega), refuse_bind,
      Block.heightIn, need_plain hl]
    rfl

theorem checks_condition (hop : Opcode.ofWord? (code.getD ip 0) = some op)
    (hl : op.form.layout = .condition count t) :
    Checks a code r ip := by
  have hb := hr.stop_le
  obtain ⟨hcount, ht⟩ := Opcode.layout_condition hl
  intro h
  rw [heightIn, if_pos hip, word_eq hr le_rfl hip, pure_bind, hop]
  simp only [hl]
  by_cases hin : ip + (count + 2) < r.stop
  · obtain ⟨yes, hyes⟩ : ∃ yes, (code.getD (ip + (count + 1)) 0).toNat = yes := ⟨_, rfl⟩
    obtain ⟨no, hno⟩ : ∃ no, (code.getD (ip + (count + 2)) 0).toNat = no := ⟨_, rfl⟩
    rw [block_condition hl hop hb hin hyes hno, operandAt_eq hr (by omega), operandAt_eq hr (by omega),
      pure_bind, pure_bind,
      pops_condition hl 0 (operandOf code ip count), hyes, hno]
    by_cases hover : ip + count + 3 + yes + no ≤ r.stop
    · rw [if_pos hover, if_pos hover, Block.heightIn, (ht _).1]
      simp only [lift_bind, lift_ite,
        heightIn_body hr ih (show ip < ip + count + 3 by omega)
          (show ip + count + 3 ≤ ip + count + 3 + yes by omega) (by omega),
        heightIn_body hr ih (show ip < ip + count + 3 + yes by omega)
          (show ip + count + 3 + yes ≤ ip + count + 3 + yes + no by omega) hover,
        heightIn_rest hr ih (show ip < ip + count + 3 + yes + no by omega) hover]
      rfl
    · rw [if_neg hover, if_neg hover, Block.heightIn, lift_bind, (ht _).1]
      rfl
  · rw [block_condition_cut hl hop hb hip (by omega), Block.heightIn, lift_bind]
    refine bind_congr fun _ => operandAt_bind_refuse hr fun _ => ?_
    rw [operandAt_cut (by omega), refuse_bind]

theorem checks_loop (hop : Opcode.ofWord? (code.getD ip 0) = some .whileMatched) :
    Checks a code r ip := by
  have hb := hr.stop_le
  intro h
  rw [heightIn, if_pos hip, word_eq hr le_rfl hip, pure_bind, hop]
  simp only [Opcode.form, Form.layout]
  by_cases hin : ip + 1 < r.stop
  · obtain ⟨size, hsize⟩ : ∃ size, (code.getD (ip + 1) 0).toNat = size := ⟨_, rfl⟩
    rw [block_loop hop hb hin hsize, operandAt_eq hr hin, pure_bind, hsize]
    by_cases hover : ip + 2 + size ≤ r.stop
    · rw [if_pos hover, if_pos hover, heightIn_body hr ih (by omega) (by omega) hover, Block.heightIn]
      simp only [lift_bind, lift_ite,
        heightIn_rest hr ih (show ip < ip + 2 + size by omega) hover]
      rfl
    · rw [if_neg hover, if_neg hover, Block.heightIn, lift_bind]
      rfl
  · rw [block_loop_cut hop hb hip (by omega), Block.heightIn, lift_bind, operandAt_cut (by omega),
      refuse_bind]
    rfl

theorem checks_call (hop : Opcode.ofWord? (code.getD ip 0) = some .call) : Checks a code r ip := by
  have hb := hr.stop_le
  intro h
  rw [heightIn, if_pos hip, word_eq hr le_rfl hip, pure_bind, hop]
  simp only [Opcode.form, Form.layout]
  by_cases hin : ip + 3 < r.stop
  · obtain ⟨n, hn⟩ : ∃ n, (code.getD (ip + 3) 0).toNat = n := ⟨_, rfl⟩
    rw [operandAt_eq hr (by omega), operandAt_eq hr hin, pure_bind, pure_bind, hn]
    by_cases hslots : ip + 4 + n ≤ r.stop
    · rw [block_call hop hb hslots hn, each_eq hr _ hslots, Block.heightIn, check_needSlots]
      simp only [lift_bind, lift_ite, bind_assoc, pure_bind,
        heightIn_rest hr ih (show ip < ip + 4 + n by omega) hslots]
      rfl
    · rw [block_call_cut hop hb hin (by omega), each_cut hr _ (by omega) (by omega), Block.heightIn,
        check_needSlots]
      simp only [lift_bind, bind_assoc, pure_bind, refuse_bind]
      rfl
  · rw [block_call_short hop hb hip (by omega)]
    refine operandAt_bind_refuse hr fun _ => ?_
    rw [operandAt_cut (by omega), refuse_bind]

end step

theorem checks_done (hip : r.stop ≤ ip) : Checks a code r ip := by
  intro h
  rw [heightIn, if_neg (by omega), block_done hip]
  rfl

theorem checks_unknown (hr : r.Holds code ip) (hip : ip < r.stop)
    (hop : Opcode.ofWord? (code.getD ip 0) = none) : Checks a code r ip := by
  intro h
  rw [heightIn, if_pos hip, word_eq hr le_rfl hip, pure_bind, hop, block_unknown hip hr.stop_le hop]
  rfl

theorem checks (a : Arithmetic ε) (hr : r.Holds code ip) : Checks a code r ip :=
  hr.induction checks_done checks_unknown checks_plain checks_condition checks_loop checks_call

/-! The listing. -/

/-- The lines of the rest of a stretch from place `ip` on, inside `d` bodies. -/
def lines (consts : List Constant) (code : Code) (r : Stretch) (ip d : ℕ) : Watched Id (List Line) :=
  if ip < r.stop then do
    let w ← word code r ip
    match Opcode.ofWord? w with
    | none => pure [.unknown d ip w]
    | some op =>
      match op.form.layout with
      | .plain count i =>
        if ip + 1 + count ≤ r.stop then do
          let args ← group code r (ip + 1) count
          let rest ← advance r ip (ip + 1 + count) <| lines consts code r (ip + 1 + count) d
          pure (.entry d ip op (Code.decimal args)
            ((i (args.getD 0 0)).constant?.map (constantNote consts)) :: rest)
        else pure [.truncated d ip op]
      | .condition leading t =>
        if ip + 1 + (leading + 2) ≤ r.stop then do
          let args ← group code r (ip + 1) (leading + 2)
          let test := t ((args.take leading).getD 0 0)
          let yes := (args.getD leading 0).toNat
          let no := (args.getD (leading + 1) 0).toNat
          let start := ip + leading + 3
          if start + yes + no ≤ r.stop then do
            let as ← enter code r ⟨start, start + yes⟩ <|
              lines consts code ⟨start, start + yes⟩ start (d + 1)
            let bs ← if 0 < no then do
                let bs ← enter code r ⟨start + yes, start + yes + no⟩ <|
                  lines consts code ⟨start + yes, start + yes + no⟩ (start + yes) (d + 1)
                pure (.mark d "else:" :: bs)
              else pure []
            let rest ← advance r ip (start + yes + no) <|
              lines consts code r (start + yes + no) d
            pure (Block.testLine consts d ip test yes no :: .mark d "then:" :: as ++ bs ++ rest)
          else pure [Block.testLine consts d ip test yes no, .mark d "<bodies overrun span>"]
        else pure [.truncated d ip op]
      | .loop =>
        if ip + 1 + 1 ≤ r.stop then do
          let args ← group code r (ip + 1) 1
          let size := (args.getD 0 0).toNat
          if ip + 2 + size ≤ r.stop then do
            let as ← enter code r ⟨ip + 2, ip + 2 + size⟩ <|
              lines consts code ⟨ip + 2, ip + 2 + size⟩ (ip + 2) (d + 1)
            let rest ← advance r ip (ip + 2 + size) <| lines consts code r (ip + 2 + size) d
            pure (Block.loopLine d ip size :: as ++ rest)
          else pure [Block.loopLine d ip size, .mark d "<body overruns span>"]
        else pure [.truncated d ip op]
      | .call =>
        if ip + 1 + 3 ≤ r.stop then do
          let head ← group code r (ip + 1) 3
          let n := (head.getD 2 0).toNat
          if ip + 1 + (3 + n) ≤ r.stop then do
            let args ← group code r (ip + 1) (3 + n)
            let rest ← advance r ip (ip + 4 + n) <| lines consts code r (ip + 4 + n) d
            pure (.entry d ip op
              (toString (head.getD 0 0).toNat ++ ", pop " ++ toString (head.getD 1 0).toNat
                ++ ", [" ++ Code.decimal (args.drop 3) ++ "]")
              (some (constantNote consts (head.getD 0 0))) :: rest)
          else pure [.truncated d ip op]
        else pure [.truncated d ip op]
  else pure []
termination_by r.stop - ip
decreasing_by
  all_goals
    try dsimp +zetaDelta only at *
    omega

/-- The lines by place are those of the tree. -/
def Lists (consts : List Constant) (code : Code) (r : Stretch) (ip : ℕ) : Prop :=
  ∀ d, lines consts code r ip d = pure ((block code ⟨ip, r.stop⟩).lines consts d)

variable {consts : List Constant}

section step

variable {count : ℕ} {i : UInt32 → Instr} {t : UInt32 → Test} (hr : r.Holds code ip) (hip : ip < r.stop)
  (ih : Before code (Lists consts code) r ip)
include hr ih

theorem lines_rest {jp : ℕ} (hj : ip < jp) (hjr : jp ≤ r.stop) (d : ℕ) :
    advance r ip jp (lines consts code r jp d) = pure ((block code ⟨jp, r.stop⟩).lines consts d) := by
  rw [advance_eq hj hjr]
  exact ih.rest hr hj hjr d

theorem lines_body {a b : ℕ} (ha : ip < a) (hab : a ≤ b) (hb : b ≤ r.stop) (d : ℕ) :
    enter code r ⟨a, b⟩ (lines consts code ⟨a, b⟩ a d) =
      pure ((block code ⟨a, b⟩).lines consts d) := by
  rw [enter_eq hr ha.le hab hb]
  exact ih.body hr ha hab hb d

include hip

theorem lists_plain (hop : Opcode.ofWord? (code.getD ip 0) = some op)
    (hl : op.form.layout = .plain count i) : Lists consts code r ip := by
  have hb := hr.stop_le
  obtain ⟨hcount, hi⟩ := Opcode.layout_plain hl
  intro d
  rw [lines, if_pos hip, word_eq hr le_rfl hip, pure_bind, hop]
  simp only [hl]
  by_cases hin : ip + 1 + count ≤ r.stop
  · have hargs := words_operand hcount (show ip + count < code.length by omega)
    have harg : (words code ⟨ip + 1, ip + 1 + count⟩).getD 0 0 = operandOf code ip count := by
      rw [hargs]
      unfold operandOf
      split <;> rfl
    have hops : (i (operandOf code ip count)).operands = words code ⟨ip + 1, ip + 1 + count⟩ := by
      rw [(hi _).2, hargs]
    rw [if_pos hin, block_plain hl hop hb (by omega), Block.lines, group_eq hr hin, pure_bind,
      lines_rest hr ih (by omega) hin, pure_bind, harg, hops, (hi _).1]
  · rw [if_neg hin, block_plain_cut hl hop hb hip (by omega), Block.lines]

theorem lists_condition (hop : Opcode.ofWord? (code.getD ip 0) = some op)
    (hl : op.form.layout = .condition count t) : Lists consts code r ip := by
  have hb := hr.stop_le
  obtain ⟨hcount, ht⟩ := Opcode.layout_condition hl
  intro d
  rw [lines, if_pos hip, word_eq hr le_rfl hip, pure_bind, hop]
  simp only [hl]
  by_cases hin : ip + 1 + (count + 2) ≤ r.stop
  · obtain ⟨yes, hyes⟩ : ∃ yes, (code.getD (ip + (count + 1)) 0).toNat = yes := ⟨_, rfl⟩
    obtain ⟨no, hno⟩ : ∃ no, (code.getD (ip + (count + 2)) 0).toNat = no := ⟨_, rfl⟩
    have hargs := words_operand hcount (show ip + count < code.length by omega)
    have harg : ((words code ⟨ip + 1, ip + 1 + (count + 2)⟩).take count).getD 0 0 =
        operandOf code ip count := by
      rw [take_words (by omega), hargs]
      unfold operandOf
      split <;> rfl
    have hy : ((words code ⟨ip + 1, ip + 1 + (count + 2)⟩).getD count 0).toNat = yes := by
      rw [getD_words (by omega) (by omega), Nat.add_right_comm, Nat.add_assoc, hyes]
    have hn : ((words code ⟨ip + 1, ip + 1 + (count + 2)⟩).getD (count + 1) 0).toNat = no := by
      rw [getD_words (by omega) (by omega), Nat.add_right_comm, Nat.add_assoc, hno]
    rw [if_pos hin, block_condition hl hop hb (by omega) hyes hno, group_eq hr hin, pure_bind, harg,
      hy, hn]
    by_cases hover : ip + count + 3 + yes + no ≤ r.stop
    · rw [if_pos hover, if_pos hover, Block.lines, lines_body hr ih (by omega) (by omega) (by omega),
        pure_bind, lines_rest hr ih (by omega) hover]
      by_cases hpos : 0 < no
      · rw [if_pos hpos, if_pos hpos, lines_body hr ih (by omega) (by omega) hover]
        rfl
      · rw [if_neg hpos, if_neg hpos]
        rfl
    · rw [if_neg hover, if_neg hover, Block.lines]
  · rw [if_neg hin, block_condition_cut hl hop hb hip (by omega), Block.lines]

theorem lists_loop (hop : Opcode.ofWord? (code.getD ip 0) = some .whileMatched) :
    Lists consts code r ip := by
  have hb := hr.stop_le
  intro d
  rw [lines, if_pos hip, word_eq hr le_rfl hip, pure_bind, hop]
  simp only [Opcode.form, Form.layout]
  by_cases hin : ip + 1 + 1 ≤ r.stop
  · obtain ⟨size, hsize⟩ : ∃ size, (code.getD (ip + 1) 0).toNat = size := ⟨_, rfl⟩
    have hargs : words code ⟨ip + 1, ip + 1 + 1⟩ = [code.getD (ip + 1) 0] := by
      rw [words_cons (by omega) (by omega), words_nil le_rfl]
    rw [if_pos hin, block_loop hop hb hin hsize, group_eq hr hin, pure_bind, hargs,
      List.getD_cons_zero, hsize]
    by_cases hover : ip + 2 + size ≤ r.stop
    · rw [if_pos hover, if_pos hover, lines_body hr ih (by omega) (by omega) hover, pure_bind,
        lines_rest hr ih (by omega) hover, pure_bind, Block.lines]
    · rw [if_neg hover, if_neg hover, Block.lines]
  · rw [if_neg hin, block_loop_cut hop hb hip (by omega), Block.lines]

theorem lists_call (hop : Opcode.ofWord? (code.getD ip 0) = some .call) :
    Lists consts code r ip := by
  have hb := hr.stop_le
  intro d
  rw [lines, if_pos hip, word_eq hr le_rfl hip, pure_bind, hop]
  simp only [Opcode.form, Form.layout]
  by_cases hin : ip + 1 + 3 ≤ r.stop
  · obtain ⟨n, hn⟩ : ∃ n, (code.getD (ip + 3) 0).toNat = n := ⟨_, rfl⟩
    have hhead := words_call (show ip + 3 < ip + 1 + 3 by omega) (hin.trans hb)
    rw [if_pos hin, group_eq hr hin, pure_bind, hhead]
    simp only [List.getD_cons_zero, List.getD_cons_succ, hn]
    by_cases hslots : ip + 1 + (3 + n) ≤ r.stop
    · have hargs := words_call (show ip + 3 < ip + 1 + (3 + n) by omega) (hslots.trans hb)
      have hfour : ip + 1 + (3 + n) = ip + 4 + n := by omega
      rw [if_pos hslots, group_eq hr hslots, pure_bind, lines_rest hr ih (by omega) (by omega),
        pure_bind, hargs, block_call hop hb (by omega) hn, Block.lines, hfour]
      rfl
    · rw [if_neg hslots, block_call_cut hop hb (by omega) (by omega), Block.lines]
  · rw [if_neg hin, block_call_short hop hb hip (by omega), Block.lines]

end step

theorem lists_done (hip : r.stop ≤ ip) : Lists consts code r ip := by
  intro d
  rw [lines, if_neg (by omega), block_done hip, Block.lines]

theorem lists_unknown (hr : r.Holds code ip) (hip : ip < r.stop)
    (hop : Opcode.ofWord? (code.getD ip 0) = none) : Lists consts code r ip := by
  intro d
  rw [lines, if_pos hip, word_eq hr le_rfl hip, pure_bind, hop, block_unknown hip hr.stop_le hop,
    Block.lines]

theorem lists (hr : r.Holds code ip) : Lists consts code r ip :=
  hr.induction lists_done lists_unknown lists_plain lists_condition lists_loop lists_call

end PegMachine.Stretch
