import PegMachine.Proofs.Compile.Errors

/-! Code does not tell how high on the stack it was compiled to run. Slots are counted from the bottom,
but only their distances from the top get into the code, so the top and all labels may be raised alike. -/
namespace PegMachine

variable {α β : Type} {rules : String → Option ℕ} {d : ℤ} {e : Expr} {es : List Expr}

/-- The same labels, each with a slot `d` higher. -/
def Scope.raise (d : ℤ) (s : Scope) : Scope := s.map fun b => (b.1, b.2 + d)

/-- The error of the same fault on a stack that is `d` higher. -/
def CompileError.raise (d : ℤ) : CompileError → CompileError
  | .invalidSlot label slot sp => .invalidSlot label (slot + d) (sp + d)
  | x => x

/-- The error names no slot. -/
def CompileError.Slotless (x : CompileError) : Prop := ∀ d, x.raise d = x

theorem slotless_overflow (what : String) (n : ℕ) :
    CompileError.Slotless (.operandOverflow what n) := fun _ => rfl

theorem Labels.raise_set (label : String) (k : ℤ) (s : Scope) :
    Scope.raise d (s.set label k) = Labels.set label (k + d) (s.raise d) := by
  induction s with
  | nil => rfl
  | cons b bs ih =>
    rw [Labels.set, Scope.raise, Scope.raise, List.map_cons, Labels.set]
    by_cases h : b.1 = label
    · rw [if_pos h, if_pos h]
      rfl
    · rw [if_neg h, if_neg h, List.map_cons]
      exact congrArg _ ih

theorem Expr.raise_bind (e : Expr) (k : ℤ) (s : Scope) :
    Scope.raise d (e.bind k s) = e.bind (k + d) (s.raise d) := by
  induction e with
  | labeled label e => exact Labels.raise_set label k s
  | named name e ih => exact ih
  | _ => rfl

namespace Scope

theorem names_raise (d : ℤ) (s : Scope) : (s.raise d).names = s.names := by
  simp [raise, Labels.names]

theorem offset_raise (d sp : ℤ) (b : String × ℤ) :
    offset (sp + d) (b.1, b.2 + d) = (offset sp b).mapError (·.raise d) := by
  have hdistance : sp + d - (b.2 + d) = sp - b.2 := by omega
  unfold offset
  rw [hdistance]
  split
  · rfl
  · rfl

theorem offsets_raise (d sp : ℤ) (s : Scope) :
    (s.raise d).offsets (sp + d) = (s.offsets sp).mapError (·.raise d) := by
  induction s with
  | nil => rfl
  | cons b bs ih =>
    change (do
      let n ← offset (sp + d) (b.1, b.2 + d)
      let ns ← offsets (sp + d) (raise d bs)
      .ok (n :: ns)) = (offsets sp (b :: bs)).mapError _
    rw [offset_raise, ih, offsets]
    cases offset sp b with
    | error x => rfl
    | ok n => cases offsets sp bs <;> rfl

end Scope

namespace Context

theorem step_push (ctx : Context) (d n : ℤ) : (ctx.step d).push n = (ctx.push n).step d := by
  simp only [step, push, add_right_comm]

theorem step_step (ctx : Context) (d n : ℤ) : (ctx.step d).step n = (ctx.step n).step d := by
  simp only [step, add_right_comm]

end Context

namespace Compile

/-- `m'` makes what `m` makes of a pool. Where `m` fails, `m'` fails in the same way, `d` slots higher. -/
def Relocates (d : ℤ) (m m' : Compile α) : Prop := ∀ p, m' p = (m p).mapError (·.raise d)

namespace Relocates

/-- What fails without naming a slot does the same at any height. -/
theorem of_throws {m : Compile α} (h : Throws m CompileError.Slotless) : Relocates d m m := by
  intro p
  cases hm : m p with
  | ok x => rfl
  | error x => exact congrArg _ (h p x hm d).symm

theorem pure (a : α) : Relocates d (pure a) (pure a) := fun _ => rfl

theorem bind {m m' : Compile α} {f f' : α → Compile β} (hm : Relocates d m m')
    (hf : ∀ a, Relocates d (f a) (f' a)) : Relocates d (m >>= f) (m' >>= f') := by
  intro p
  change (m' p >>= fun x => f' x.1 x.2) = (m p >>= fun x => f x.1 x.2).mapError _
  rw [hm p]
  cases m p with
  | error x => rfl
  | ok x => exact hf x.1 x.2

/-- What comes first names no slot. -/
theorem after {m : Compile α} {f f' : α → Compile β} (hm : Throws m CompileError.Slotless)
    (hf : ∀ a, Relocates d (f a) (f' a)) : Relocates d (m >>= f) (m >>= f') :=
  (of_throws hm).bind hf

theorem call (d : ℤ) (f : UInt32) (n : ℕ) (s : Scope) (sp : ℤ) :
    Relocates d (liftM (Code.call f n s sp) : Compile Code)
      (liftM (Code.call f n (s.raise d) (sp + d))) := by
  intro p
  unfold Code.call
  rw [Scope.offsets_raise]
  cases s.offsets sp with
  | error x => rfl
  | ok slots =>
    have hrest : Throws (liftM (do
        let n ← operand "pop count" n
        let k ← operand "parameter count" slots.length
        .ok (Opcode.call.word :: f :: n :: k :: slots)) : Compile Code) CompileError.Slotless := by
      refine .lift (except_bind_throws (operand_throws slotless_overflow) fun n => ?_)
      exact except_bind_throws (operand_throws slotless_overflow) fun k y hy => by cases hy
    exact of_throws hrest p

end Relocates

theorem relocates_guard (negated : Bool) (code : String) (ctx : Context) (s : Scope) :
    Relocates d (Compile.guard negated code ctx s)
      (Compile.guard negated code (ctx.step d) (s.raise d)) := by
  unfold Compile.guard function
  rw [Scope.names_raise]
  refine .after (throws_intern slotless_overflow _) fun f => ?_
  refine .after (throws_intern slotless_overflow _) fun undefined => ?_
  refine .after (throws_intern slotless_overflow _) fun failed => ?_
  refine (Relocates.call d f 0 s ctx.sp).bind fun call => ?_
  exact .after (throws_branch slotless_overflow _ _ _) fun answer => .pure _

theorem relocates_collect (n : ℕ) (ctx : Context) (s : Scope) :
    Relocates d (collect n ctx s) (collect n (ctx.step d) (s.raise d)) := by
  unfold collect function
  rw [Scope.names_raise]
  refine .after (.lift (operand_throws slotless_overflow)) fun count => ?_
  obtain ⟨sp, action⟩ := ctx
  cases action with
  | none => exact .pure _
  | some code =>
    refine .after (throws_intern slotless_overflow _) fun f => ?_
    exact (Relocates.call d f n s sp).bind fun call => .pure _

theorem relocates_action (operand : Code) (code : String) (ctx : Context) (s : Scope) :
    Relocates d (Compile.action operand code ctx s)
      (Compile.action operand code (ctx.step d) (s.raise d)) := by
  unfold Compile.action function
  rw [Scope.names_raise]
  refine .after (throws_intern slotless_overflow _) fun f => ?_
  have htop : (ctx.step d).sp + 2 = ctx.sp + 2 + d := by
    simp only [Context.step]
    omega
  rw [htop]
  refine (Relocates.call d f 1 s (ctx.sp + 2)).bind fun call => ?_
  exact .after (throws_branch slotless_overflow _ _ _) fun answer => .pure _

end Compile

open Compile

/-- The code of `e` may be raised by `d`. -/
def Expr.Relocatable (rules : String → Option ℕ) (d : ℤ) (e : Expr) : Prop :=
  ∀ ctx s, Relocates d (e.compile rules ctx s) (e.compile rules (ctx.step d) (s.raise d))

/-- An operand starts without labels. -/
theorem Expr.Relocatable.push (h : e.Relocatable rules d) (ctx : Context) (n : ℤ) :
    Relocates d (e.compile rules (ctx.push n) []) (e.compile rules ((ctx.step d).push n) []) := by
  rw [Context.step_push]
  exact h (ctx.push n) []

theorem relocates_choice (ih : ∀ e ∈ es, e.Relocatable rules d) (ctx : Context) :
    Relocates d (compileChoice rules es ctx) (compileChoice rules es (ctx.step d)) := by
  induction es with
  | nil =>
    rw [compileChoice, compileChoice]
    exact .after (throws_intern slotless_overflow _) fun failed => .pure _
  | cons e es ihs =>
    have he := (ih e List.mem_cons_self).push ctx 0
    cases es with
    | nil =>
      rw [compileChoice, compileChoice]
      exact he
    | cons e' es =>
      rw [compileChoice, compileChoice]
      have hothers := ihs fun e he => ih e (List.mem_cons_of_mem _ he)
      refine he.bind fun first => hothers.bind fun others => ?_
      exact .after (throws_branch slotless_overflow _ _ _) fun rest => .pure _

theorem relocates_elements (ih : ∀ e ∈ es, e.Relocatable rules d) (failed : UInt32) (n : ℕ)
    (ctx : Context) (s : Scope) :
    Relocates d (compileElements rules failed es n ctx s)
      (compileElements rules failed es n (ctx.step d) (s.raise d)) := by
  induction es generalizing n ctx s with
  | nil =>
    rw [compileElements, compileElements]
    exact relocates_collect n ctx s
  | cons e es ihs =>
    rw [compileElements, compileElements]
    have he := ih e List.mem_cons_self (ctx.push 0) s
    have hothers := ihs (fun e he => ih e (List.mem_cons_of_mem _ he)) (n + 1) (ctx.step 1)
      (e.bind (ctx.sp + 1) s)
    -- the label of `e` is bound to the slot above the raised top, that is, to its own slot raised
    have hscope : e.bind ((ctx.step d).sp + 1) (s.raise d) =
        Scope.raise d (e.bind (ctx.sp + 1) s) := by
      rw [Expr.raise_bind]
      simp only [Context.step, add_right_comm]
    rw [Context.step_push, Context.step_step, hscope]
    refine he.bind fun first => hothers.bind fun others => ?_
    refine .after (throws_dropValues slotless_overflow _) fun drop => ?_
    exact .after (throws_branch slotless_overflow _ _ _) fun rest => .pure _

theorem relocates_next {o : Option Expr} (ih : ∀ e ∈ o, e.Relocatable rules d) (failed : UInt32)
    (operand : Code) (ctx : Context) (n : ℤ) :
    Relocates d (compileNext rules failed operand o (ctx.push n))
      (compileNext rules failed operand o ((ctx.step d).push n)) := by
  cases o with
  | none =>
    rw [compileNext, compileNext]
    exact .pure _
  | some e =>
    rw [compileNext, compileNext, Context.step_push]
    refine (ih e rfl (ctx.push n) []).bind fun delimiter => ?_
    refine .after (throws_branch slotless_overflow _ _ _) fun back => ?_
    exact .after (throws_branch slotless_overflow _ _ _) fun next => .pure _

/-- Slots get into the code only as distances from the top. -/
theorem Expr.relocatable (e : Expr) : e.Relocatable rules d := by
  have hintern (c : Constant) : Throws (intern c) CompileError.Slotless :=
    throws_intern slotless_overflow c
  have hbranch (t : Test) (yes no : Code) : Throws (branch t yes no) CompileError.Slotless :=
    throws_branch slotless_overflow t yes no
  have hloop (body : Code) : Throws (loop body) CompileError.Slotless :=
    throws_loop slotless_overflow body
  induction e with
  | named name e ih =>
    intro ctx s
    rw [Expr.compile, Expr.compile]
    refine .after (hintern _) fun expected => (ih ctx s).bind fun inner => ?_
    exact .after (hbranch _ _ _) fun report => .pure _
  | choice es ih =>
    intro ctx s
    rw [Expr.compile, Expr.compile]
    exact relocates_choice ih ctx
  | action e code ih =>
    intro ctx s
    rw [Expr.compile, Expr.compile]
    split
    · rw [Context.step_push]
      exact ih ((ctx.push 0).withAction code) []
    · have hscope : e.bind ((ctx.step d).sp + 2) [] = Scope.raise d (e.bind (ctx.sp + 2) []) := by
        rw [Expr.raise_bind]
        simp only [Context.step, add_right_comm]
        rfl
      rw [hscope]
      exact (ih.push ctx 1).bind fun inner => relocates_action inner code ctx _
  | sequence es ih =>
    intro ctx s
    rw [Expr.compile, Expr.compile, Context.step_step]
    refine .after (hintern _) fun failed => ?_
    exact (relocates_elements ih failed 0 (ctx.step 1) s).bind fun body => .pure _
  | labeled label e ih =>
    intro ctx s
    rw [Expr.compile, Expr.compile]
    exact ih.push ctx 0
  | text e ih =>
    intro ctx s
    rw [Expr.compile, Expr.compile]
    exact (ih.push ctx 1).bind fun inner => .after (hbranch _ _ _) fun cut => .pure _
  | followedBy e ih | notFollowedBy e ih =>
    intro ctx s
    rw [Expr.compile, Expr.compile]
    refine .after (hintern _) fun undefined => .after (hintern _) fun failed => ?_
    exact (ih.push ctx 1).bind fun inner => .after (hbranch _ _ _) fun answer => .pure _
  | guard code =>
    intro ctx s
    rw [Expr.compile, Expr.compile]
    exact relocates_guard false code ctx s
  | guardNot code =>
    intro ctx s
    rw [Expr.compile, Expr.compile]
    exact relocates_guard true code ctx s
  | optional e ih =>
    intro ctx s
    rw [Expr.compile, Expr.compile]
    refine .after (hintern _) fun null => (ih.push ctx 0).bind fun inner => ?_
    exact .after (hbranch _ _ _) fun other => .pure _
  | zeroOrMore e ih =>
    intro ctx s
    rw [Expr.compile, Expr.compile]
    refine .after (hintern _) fun empty => (ih.push ctx 1).bind fun inner => ?_
    exact .after (hloop _) fun more => .pure _
  | oneOrMore e ih =>
    intro ctx s
    rw [Expr.compile, Expr.compile]
    refine .after (hintern _) fun empty => .after (hintern _) fun failed => ?_
    refine (ih.push ctx 1).bind fun inner => .after (hloop _) fun more => ?_
    exact .after (hbranch _ _ _) fun rest => .pure _
  | bounded e min max o ih ihd =>
    intro ctx s
    rw [Expr.compile, Expr.compile]
    refine .after (hintern _) fun empty => .after (hintern _) fun failed => ?_
    refine (ih.push ctx 1).bind fun first => ?_
    refine (relocates_next ihd failed first ctx 2).bind fun next => ?_
    refine .after (hintern _) fun least => .after (hintern _) fun most => ?_
    refine .after (hbranch _ _ _) fun more => .after (hloop _) fun rounds => ?_
    exact .after (hbranch _ _ _) fun enough => .pure _
  | rule name =>
    intro ctx s
    rw [Expr.compile, Expr.compile]
    cases rules name with
    | none => exact fun _ => rfl
    | some i => exact .pure _
  | literal value ignoreCase =>
    intro ctx s
    rw [Expr.compile, Expr.compile]
    exact .of_throws (throws_literal slotless_overflow value ignoreCase)
  | charClass k text =>
    intro ctx s
    rw [Expr.compile, Expr.compile]
    exact .after (hintern _) fun members => .after (hintern _) fun expected =>
      .of_throws (hbranch _ _ _)
  | any =>
    intro ctx s
    rw [Expr.compile, Expr.compile]
    exact .after (hintern _) fun expected => .of_throws (hbranch _ _ _)

theorem mapError_eq_ok {ε : Type} {x : Except ε α} {f : ε → ε} {a : α} :
    x.mapError f = .ok a ↔ x = .ok a := by
  cases x with
  | error y => simp [Except.mapError]
  | ok b => rfl

/-- Code is compiled alike at any height. With the top and all slots of the labels in scope `d` higher it
succeeds in the same cases, with the same words and the same pool after it, and where it fails, only the
slots in the error are raised; the labels in scope after it are those slots raised, too. Without labels in
scope, the height does not matter at all. -/
theorem Expr.compile_raise (rules : String → Option ℕ) (e : Expr) (p : Pool) (ctx : Context)
    (s : Scope) (d : ℤ) :
    (∀ r, e.compile rules (ctx.step d) (s.raise d) p = .ok r ↔ e.compile rules ctx s p = .ok r) ∧
      e.compile rules (ctx.step d) (s.raise d) p = (e.compile rules ctx s p).mapError (·.raise d) ∧
      e.bind ((ctx.step d).sp + 1) (s.raise d) = Scope.raise d (e.bind (ctx.sp + 1) s) ∧
      ∀ (sp : ℤ) r, e.compile rules ⟨sp, ctx.action⟩ [] p = .ok r ↔
        e.compile rules ctx [] p = .ok r := by
  have hraise := (e.relocatable : e.Relocatable rules d) ctx s p
  refine ⟨fun r => ?_, hraise, ?_, fun sp r => ?_⟩
  · rw [hraise]
    exact mapError_eq_ok
  · rw [Expr.raise_bind]
    simp only [Context.step, add_right_comm]
  · have hsp := (e.relocatable : e.Relocatable rules (sp - ctx.sp)) ctx [] p
    have hctx : ctx.step (sp - ctx.sp) = ⟨sp, ctx.action⟩ := by
      simp only [Context.step, add_sub_cancel]
    rw [hctx] at hsp
    change e.compile rules ⟨sp, ctx.action⟩ [] p = _ at hsp
    rw [hsp]
    exact mapError_eq_ok

end PegMachine
