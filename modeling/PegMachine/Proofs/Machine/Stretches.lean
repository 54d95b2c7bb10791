import PegMachine.Machine.Run
import PegMachine.Proofs.Code.Visits
import PegMachine.Proofs.Code.Watched
import PegMachine.Proofs.Results

/-! The machine as a walk by place. It asks for operand after operand, and looks at the value in a slot
before it asks for the next slot. Memory for the arguments of a call is asked for before any of its slots,
as much as its number of slots says. The body of a loop is entered anew for each pass. -/
namespace PegMachine

variable {σ : Type}

open Run Watched

namespace Watched

/-- `Run.whileMatched` with a watched body. -/
def whileMatched (body : Stack → Watched (Run σ) Stack) : (fuel : ℕ) → Stack → Watched (Run σ) Stack
  | fuel, st => do
    let v ← ExceptT.lift (ofExcept st.top)
    if v.isFailed then pure st
    else match fuel with
      | 0 => ExceptT.lift (throw .fuel)
      | fuel + 1 => do
        let st ← body st
        whileMatched body fuel st

/-- Runs an instruction; `rule` runs a rule, which only one instruction does. -/
def instr (env : Env σ) (rule : ℕ → Watched (Run σ) Value) (i : Instr) (st : Stack) :
    Watched (Run σ) Stack :=
  match i with
  | .rule i => do
    let v ← rule i.toNat
    pure (v :: st)
  | i => ExceptT.lift (i.run env (fun i => fault (.ruleIndex i)) st)

/-- Asks for memory for `n` values. `room k n` tells whether the `k`-th instruction of the run is granted as
much; nothing is needed for no values. -/
def reserve (room : ℕ → ℕ → Bool) (n : ℕ) : Watched (Run σ) Unit := do
  let s ← ExceptT.lift get
  if n = 0 ∨ room s.steps n then pure () else throw (.memory n)

theorem whileMatched_lift {body : Stack → Watched (Run σ) Stack} {run : Stack → Run σ Stack}
    (h : ∀ st, body st = ExceptT.lift (run st)) (fuel : ℕ) (st : Stack) :
    whileMatched body fuel st = ExceptT.lift (Run.whileMatched run fuel st) := by
  induction fuel generalizing st with
  | zero =>
    rw [whileMatched, Run.whileMatched, lift_bind]
    refine bind_congr fun v => ?_
    split
    · rw [lift_pure]
    · rfl
  | succ fuel ih =>
    rw [whileMatched, Run.whileMatched, lift_bind]
    refine bind_congr fun v => ?_
    split
    · rw [lift_pure]
    · rw [h, lift_bind]
      exact bind_congr ih

theorem reserve_run (room : ℕ → ℕ → Bool) (n : ℕ) (s : State σ) : (reserve room n).run s =
    .ok (if n = 0 ∨ room s.steps n then .ok () else .error (.memory n)) s := by
  change (if n = 0 ∨ room s.steps n then (pure () : Watched (Run σ) Unit) else throw (.memory n)).run s = _
  split <;> rfl

theorem reserve_granted (n : ℕ) :
    (reserve (fun _ _ => true) n : Watched (Run σ) Unit) = pure () := by
  refine ExceptT.ext (funext fun s => ?_)
  rw [reserve_run, if_pos (.inr rfl)]
  rfl

theorem instr_lift (env : Env σ) (rule : ℕ → Run σ Value) (i : Instr) (st : Stack) :
    instr env (fun i => ExceptT.lift (rule i)) i st = ExceptT.lift (i.run env rule st) := by
  cases i with
  | rule i => rw [Instr.run, lift_bind]; rfl
  | _ => rfl

theorem ofExcept_peekAll (st : Stack) (ks : Code) :
    (Run.ofExcept (st.peekAll ks) : Run σ (List Value)) =
      ks.mapM fun k => Run.ofExcept (st.peek k.toNat) := by
  induction ks with
  | nil => rfl
  | cons k ks ih =>
    rw [List.mapM_cons, ← ih, Stack.peekAll]
    cases st.peek k.toNat with
    | error f => rfl
    | ok v => cases st.peekAll ks <;> rfl

end Watched

namespace Stretch

/-- Runs the rest of a stretch, from place `ip` on, with memory as `room` grants it. -/
def run (room : ℕ → ℕ → Bool) (env : Env σ) (fuel : ℕ) (rule : ℕ → Watched (Run σ) Value) (name : String)
    (code : Code) (r : Stretch) (ip : ℕ) (st : Stack) : Watched (Run σ) Stack :=
  if ip < r.stop then do
    ExceptT.lift (tick env.limits st)
    let w ← word code r ip
    match Opcode.ofWord? w with
    | none => refuse (fault (.badOpcode name ip w))
    | some op =>
      match op.form.layout with
      | .plain count i => do
        let arg ← argument code r ip count (fault (.truncated name ip op))
        let st ← Watched.instr env rule (i arg) st
        advance r ip (ip + 1 + count) <| run room env fuel rule name code r (ip + 1 + count) st
      | .condition leading t => do
        let arg ← argument code r ip leading (fault (.truncated name ip op))
        let yes ← operandAt code r ip (leading + 1) (fault (.truncated name ip op))
        let no ← operandAt code r ip (leading + 2) (fault (.truncated name ip op))
        let start := ip + leading + 3
        if start + yes.toNat + no.toNat ≤ r.stop then do
          let s ← ExceptT.lift get
          let (answer, st) ← ExceptT.lift (ofExcept ((t arg).holds env s.pos st))
          let st ← if answer then
              enter code r ⟨start, start + yes.toNat⟩ <|
                run room env fuel rule name code ⟨start, start + yes.toNat⟩ start st
            else
              enter code r ⟨start + yes.toNat, start + yes.toNat + no.toNat⟩ <|
                run room env fuel rule name code ⟨start + yes.toNat, start + yes.toNat + no.toNat⟩
                  (start + yes.toNat) st
          advance r ip (start + yes.toNat + no.toNat) <|
            run room env fuel rule name code r (start + yes.toNat + no.toNat) st
        else refuse (fault (.spanOverrun name ip op))
      | .loop => do
        let n ← operandAt code r ip 1 (fault (.truncated name ip op))
        if ip + 2 + n.toNat ≤ r.stop then do
          let body := fun st => enter code r ⟨ip + 2, ip + 2 + n.toNat⟩ <|
            run room env fuel rule name code ⟨ip + 2, ip + 2 + n.toNat⟩ (ip + 2) st
          let st ← Watched.whileMatched body fuel st
          advance r ip (ip + 2 + n.toNat) <| run room env fuel rule name code r (ip + 2 + n.toNat) st
        else refuse (fault (.spanOverrun name ip op))
      | .call => do
        let f ← operandAt code r ip 1 (fault (.truncated name ip op))
        let pops ← operandAt code r ip 2 (fault (.truncated name ip op))
        let n ← operandAt code r ip 3 (fault (.truncated name ip op))
        reserve room n.toNat
        let args ← each code r ip (fault (.truncated name ip op))
          (fun k => ofExcept (st.peek k.toNat)) 4 n.toNat
        let v ← ExceptT.lift (callHost env f args)
        let st ← ExceptT.lift (ofExcept (st.popN pops.toNat))
        advance r ip (ip + 4 + n.toNat) <| run room env fuel rule name code r (ip + 4 + n.toNat) (v :: st)
  else pure st
termination_by r.stop - ip

/-- The run by place is that of the tree, if there is memory for any number of values. -/
def Runs (env : Env σ) (fuel : ℕ) (rule : ℕ → Run σ Value) (name : String) (code : Code) (r : Stretch)
    (ip : ℕ) : Prop :=
  ∀ st, run (fun _ _ => true) env fuel (fun i => ExceptT.lift (rule i)) name code r ip st =
    ExceptT.lift ((block code ⟨ip, r.stop⟩).run env fuel rule name st)

variable {env : Env σ} {fuel : ℕ} {rule : ℕ → Run σ Value} {name : String} {code : Code} {r : Stretch}
  {ip : ℕ} {op : Opcode}

theorem runs_done (hip : r.stop ≤ ip) : Runs env fuel rule name code r ip := by
  intro st
  rw [run, if_neg (by omega), block_done hip, Block.run, lift_pure]

theorem runs_unknown (hr : r.Holds code ip) (hip : ip < r.stop)
    (hop : Opcode.ofWord? (code.getD ip 0) = none) : Runs env fuel rule name code r ip := by
  intro st
  rw [run, if_pos hip, word_eq hr le_rfl hip, pure_bind, hop, block_unknown hip hr.stop_le hop,
    Block.run, lift_bind]
  rfl

section step

variable {count : ℕ} {i : UInt32 → Instr} {t : UInt32 → Test} (hr : r.Holds code ip)
  (hip : ip < r.stop) (ih : Before code (Runs env fuel rule name code) r ip)
include hr ih

theorem run_rest {jp : ℕ} (hj : ip < jp) (hjr : jp ≤ r.stop) (st : Stack) :
    advance r ip jp (run (fun _ _ => true) env fuel (fun i => ExceptT.lift (rule i)) name code r jp st) =
      ExceptT.lift ((block code ⟨jp, r.stop⟩).run env fuel rule name st) := by
  rw [advance_eq hj hjr]
  exact ih.rest hr hj hjr st

theorem run_body {a b : ℕ} (ha : ip < a) (hab : a ≤ b) (hb : b ≤ r.stop) (st : Stack) :
    enter code r ⟨a, b⟩
        (run (fun _ _ => true) env fuel (fun i => ExceptT.lift (rule i)) name code ⟨a, b⟩ a st) =
      ExceptT.lift ((block code ⟨a, b⟩).run env fuel rule name st) := by
  rw [enter_eq hr ha.le hab hb]
  exact ih.body hr ha hab hb st

include hip

theorem runs_plain (hop : Opcode.ofWord? (code.getD ip 0) = some op)
    (hl : op.form.layout = .plain count i) : Runs env fuel rule name code r ip := by
  have hb := hr.stop_le
  obtain ⟨hcount, -⟩ := Opcode.layout_plain hl
  intro st
  rw [run, if_pos hip, word_eq hr le_rfl hip, pure_bind, hop]
  simp only [hl]
  by_cases hin : ip + count < r.stop
  · rw [block_plain hl hop hb hin, argument_eq hr hcount hin, pure_bind, Block.run]
    simp only [lift_bind, instr_lift, run_rest hr ih (show ip < ip + 1 + count by omega)
      (show ip + 1 + count ≤ r.stop by omega)]
  · rw [block_plain_cut hl hop hb hip (by omega), argument_cut hcount hip (by omega), refuse_bind,
      Block.run, lift_bind]
    rfl

theorem runs_condition (hop : Opcode.ofWord? (code.getD ip 0) = some op)
    (hl : op.form.layout = .condition count t) : Runs env fuel rule name code r ip := by
  have hb := hr.stop_le
  obtain ⟨hcount, ht⟩ := Opcode.layout_condition hl
  intro st
  rw [run, if_pos hip, word_eq hr le_rfl hip, pure_bind, hop]
  simp only [hl]
  by_cases hin : ip + (count + 2) < r.stop
  · obtain ⟨yes, hyes⟩ : ∃ yes, (code.getD (ip + (count + 1)) 0).toNat = yes := ⟨_, rfl⟩
    obtain ⟨no, hno⟩ : ∃ no, (code.getD (ip + (count + 2)) 0).toNat = no := ⟨_, rfl⟩
    rw [block_condition hl hop hb hin hyes hno, argument_eq hr hcount (by omega),
      operandAt_eq hr (by omega), operandAt_eq hr (by omega), pure_bind, pure_bind, pure_bind, hyes,
      hno]
    by_cases hover : ip + count + 3 + yes + no ≤ r.stop
    · rw [if_pos hover, if_pos hover, Block.run]
      simp only [lift_bind, run_body hr ih (show ip < ip + count + 3 by omega)
        (show ip + count + 3 ≤ ip + count + 3 + yes by omega) (by omega),
        run_body hr ih (show ip < ip + count + 3 + yes by omega)
        (show ip + count + 3 + yes ≤ ip + count + 3 + yes + no by omega) hover,
        run_rest hr ih (show ip < ip + count + 3 + yes + no by omega) hover, lift_ite]
    · rw [if_neg hover, if_neg hover, Block.run, lift_bind, (ht _).1]
      rfl
  · rw [block_condition_cut hl hop hb hip (by omega), Block.run, lift_bind]
    refine bind_congr fun _ => argument_bind_refuse hr fun _ => operandAt_bind_refuse hr fun _ => ?_
    rw [operandAt_cut (by omega), refuse_bind]

theorem runs_loop (hop : Opcode.ofWord? (code.getD ip 0) = some .whileMatched) :
    Runs env fuel rule name code r ip := by
  have hb := hr.stop_le
  intro st
  rw [run, if_pos hip, word_eq hr le_rfl hip, pure_bind, hop]
  simp only [Opcode.form, Form.layout]
  by_cases hin : ip + 1 < r.stop
  · obtain ⟨size, hsize⟩ : ∃ size, (code.getD (ip + 1) 0).toNat = size := ⟨_, rfl⟩
    rw [block_loop hop hb hin hsize, operandAt_eq hr hin, pure_bind, hsize]
    by_cases hover : ip + 2 + size ≤ r.stop
    · have hbody := run_body hr ih (show ip < ip + 2 by omega) (Nat.le_add_right _ size) hover
      rw [if_pos hover, if_pos hover, Block.run]
      simp only [lift_bind, whileMatched_lift hbody,
        run_rest hr ih (show ip < ip + 2 + size by omega) hover]
    · rw [if_neg hover, if_neg hover, Block.run, lift_bind]
      rfl
  · rw [block_loop_cut hop hb hip (by omega), Block.run, lift_bind, operandAt_cut (by omega),
      refuse_bind]
    rfl

theorem runs_call (hop : Opcode.ofWord? (code.getD ip 0) = some .call) :
    Runs env fuel rule name code r ip := by
  have hb := hr.stop_le
  intro st
  rw [run, if_pos hip, word_eq hr le_rfl hip, pure_bind, hop]
  simp only [Opcode.form, Form.layout]
  by_cases hin : ip + 3 < r.stop
  · obtain ⟨n, hn⟩ : ∃ n, (code.getD (ip + 3) 0).toNat = n := ⟨_, rfl⟩
    rw [operandAt_eq hr (by omega), operandAt_eq hr (by omega), operandAt_eq hr hin, pure_bind,
      pure_bind, pure_bind, hn, reserve_granted, pure_bind]
    by_cases hslots : ip + 4 + n ≤ r.stop
    · rw [block_call hop hb hslots hn, each_eq hr _ hslots, Block.run]
      simp only [lift_bind, ofExcept_peekAll,
        run_rest hr ih (show ip < ip + 4 + n by omega) hslots]
    · rw [block_call_cut hop hb hin (by omega), each_cut hr _ (by omega) (by omega), Block.run]
      simp only [lift_bind, ofExcept_peekAll, bind_assoc, refuse_bind]
      rfl
  · rw [block_call_short hop hb hip (by omega), Block.run, lift_bind]
    refine bind_congr fun _ => operandAt_bind_refuse hr fun _ => operandAt_bind_refuse hr fun _ => ?_
    rw [operandAt_cut (by omega), refuse_bind]

end step

theorem runs (hr : r.Holds code ip) : Runs env fuel rule name code r ip :=
  hr.induction runs_done runs_unknown runs_plain runs_condition runs_loop runs_call

end Stretch

namespace Watched

/-- Runs a rule on a stack of its own, with at most `depth` rules inside one another. -/
def rule (room : ℕ → ℕ → Bool) (env : Env σ) (rules : List RuleCode) (fuel : ℕ) :
    (depth : ℕ) → ℕ → Watched (Run σ) Value
  | depth, i =>
    match rules[i]? with
    | none => ExceptT.lift (fault (.ruleIndex i))
    | some r =>
      match depth with
      | 0 => ExceptT.lift (fault (.callDepth env.limits.callDepth r.name))
      | depth + 1 => do
        let st ← Stretch.run room env fuel (rule room env rules fuel depth) r.name r.code
          ⟨0, r.code.length⟩ 0 []
        ExceptT.lift (ofExcept st.top)

/-- Runs a rule from the start of the input. -/
def machine (room : ℕ → ℕ → Bool) (m : Machine σ) (i : ℕ) (input : String) : Watched (Run σ) Outcome := do
  ExceptT.lift Machine.reset
  let v ← rule room (m.env input) m.program.rules m.fuel m.limits.callDepth i
  let s ← ExceptT.lift get
  pure ⟨v, s.pos, s.report⟩

theorem rule_eq (env : Env σ) (p : Program) (fuel depth i : ℕ) :
    rule (fun _ _ => true) env p.rules fuel depth i = ExceptT.lift (Run.rule env p.load fuel depth i) := by
  induction depth generalizing i with
  | zero =>
    rw [rule, Run.rule, Program.load, List.getElem?_map]
    cases p.rules[i]? <;> rfl
  | succ depth ih =>
    rw [rule, Run.rule, Program.load, List.getElem?_map]
    cases hi : p.rules[i]? with
    | none => rfl
    | some r =>
      have hr : Stretch.Holds r.code ⟨0, r.code.length⟩ 0 := ⟨le_rfl, Nat.zero_le _, le_rfl⟩
      have hrule : rule (fun _ _ => true) env p.rules fuel depth =
          fun i => ExceptT.lift (Run.rule env p.load fuel depth i) := funext ih
      simp only [Option.map_some]
      rw [hrule, Stretch.runs hr, Stretch.block, Stretch.words_all, lift_bind]
      rfl

theorem machine_eq (m : Machine σ) (i : ℕ) (input : String) :
    machine (fun _ _ => true) m i input = ExceptT.lift (m.run i input) := by
  rw [machine, Machine.run, rule_eq]
  simp only [lift_bind, lift_pure]

end Watched
end PegMachine
