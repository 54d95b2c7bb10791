import PegMachine.Compile.Grammar
import PegMachine.Proofs.Code.Check
import PegMachine.Proofs.Compile.Contract

/-! Why a grammar cannot be compiled: a rule is missing, or a number is too large for a word. Its
code never has a wrong height. -/
namespace PegMachine

variable {α β : Type} {E : CompileError → Prop} {rules : String → Option ℕ} {ctx : Context}
  {s : Scope} {sp bound : ℤ} {e : Expr} {es : List Expr} {xs ys : List String}

open Compile

theorem operand_throws (hE : ∀ what n, E (.operandOverflow what n)) {what : String} {n : ℕ} :
    ∀ x, operand what n = .error x → E x := by
  intro x hx
  unfold operand at hx
  split at hx
  · cases hx
  · obtain rfl := Except.error.inj hx
    exact hE _ _

theorem except_bind_throws {x : Except CompileError α}
    {f : α → Except CompileError β} (hx : ∀ y, x = .error y → E y)
    (hf : ∀ a y, f a = .error y → E y) : ∀ y, x >>= f = .error y → E y := by
  intro y hy
  cases x with
  | error z => exact hx y (by rw [Except.error.inj hy])
  | ok a => exact hf a y hy

namespace Scope

/-- All slots lie in the frame whose top is at `sp`. -/
def Inside (sp : ℤ) (s : Scope) : Prop := ∀ b ∈ s, 0 ≤ b.2 ∧ b.2 ≤ sp

theorem Inside.step (hs : s.Inside sp) : s.Inside (sp + 1) := by
  intro b hb
  have := hs b hb
  omega

theorem Inside.nil : Inside sp [] := by
  intro b hb
  cases hb

theorem Inside.bind (hs : s.Inside sp) (h0 : 0 ≤ sp) (e : Expr) : Inside sp (e.bind sp s) :=
  e.forall_bind hs fun _ => ⟨h0, le_rfl⟩

/-- A slot so far below the top at `sp` that no word holds the distance is a reason `E`. -/
def Far (E : CompileError → Prop) (sp : ℤ) : Prop :=
  ∀ label slot, 0 ≤ slot → UInt32.size ≤ sp - slot → E (.invalidSlot label slot sp)

theorem Far.of_lt (hsp : sp < UInt32.size) : Far E sp := by
  intro label slot h0 hfar
  omega

theorem Inside.offsets_throws (hs : s.Inside sp) (hfar : Far E sp) :
    ∀ x, offsets sp s = .error x → E x := by
  induction s with
  | nil =>
    intro x hx
    cases hx
  | cons b bs ih =>
    have hb := hs b List.mem_cons_self
    have hbs := ih fun c hc => hs c (List.mem_cons_of_mem _ hc)
    refine except_bind_throws (fun x hx => ?_) fun n => except_bind_throws hbs fun ns y hy => by cases hy
    unfold offset at hx
    split at hx
    · cases hx
    · next hn =>
      obtain rfl := Except.error.inj hx
      exact hfar b.1 b.2 hb.1 (by omega)

end Scope

section

variable (hE : ∀ what n, E (.operandOverflow what n))

include hE

theorem throws_intern (c : Constant) : Throws (intern c) E := by
  intro p x hx
  change p.intern c = _ at hx
  unfold Pool.intern at hx
  split at hx
  · cases hx
  · exact except_bind_throws (operand_throws hE) (fun i y hy => by cases hy) x hx

theorem throws_branch (t : Test) (yes no : Code) : Throws (Compile.branch t yes no) E := by
  refine .lift (except_bind_throws (operand_throws hE) fun a => ?_)
  exact except_bind_throws (operand_throws hE) fun b y hy => by cases hy

theorem throws_loop (body : Code) : Throws (Compile.loop body) E :=
  .lift (except_bind_throws (operand_throws hE) fun a y hy => by cases hy)

theorem throws_call (f : UInt32) (n : ℕ) (hs : s.Inside sp) (hfar : Scope.Far E sp) :
    Throws (liftM (Code.call f n s sp) : Compile Code) E := by
  refine .lift (except_bind_throws (hs.offsets_throws hfar) fun slots => ?_)
  refine except_bind_throws (operand_throws hE) fun n => ?_
  exact except_bind_throws (operand_throws hE) fun k y hy => by cases hy

theorem throws_literal (value : String) (ignoreCase : Bool) :
    Throws (Compile.literal value ignoreCase) E := by
  unfold Compile.literal
  split
  · exact (throws_intern hE _).bind fun _ => .pure _
  · refine (throws_intern hE _).bind fun text => (throws_intern hE _).bind fun expected => ?_
    cases ignoreCase with
    | true => exact (Throws.lift (operand_throws hE)).bind fun n => throws_branch hE _ _ _
    | false => exact throws_branch hE _ _ _

theorem throws_guard (negated : Bool) (code : String) (hs : s.Inside ctx.sp)
    (hfar : Scope.Far E ctx.sp) : Throws (Compile.guard negated code ctx s) E := by
  refine (throws_intern hE _).bind fun f => ?_
  refine (throws_intern hE _).bind fun undefined => ?_
  refine (throws_intern hE _).bind fun failed => ?_
  refine (throws_call hE f 0 hs hfar).bind fun call => ?_
  exact (throws_branch hE _ _ _).bind fun answer => .pure _

theorem throws_collect (n : ℕ) (hs : s.Inside ctx.sp) (hfar : Scope.Far E ctx.sp) :
    Throws (collect n ctx s) E := by
  refine (Throws.lift (operand_throws hE)).bind fun count => ?_
  cases ctx.action with
  | none => exact .pure _
  | some code =>
    refine (throws_intern hE _).bind fun f => ?_
    exact (throws_call hE f n hs hfar).bind fun call => .pure _

theorem throws_dropValues (n : ℕ) : Throws (dropValues n) E := by
  unfold dropValues
  split
  · exact (Throws.lift (operand_throws hE)).bind fun k => .pure _
  · exact .pure _

end

/-- The first of the names that no rule has. -/
def firstMissing (rules : String → Option ℕ) (names : List String) : Option String :=
  names.find? fun n => (rules n).isNone

theorem firstMissing_append :
    firstMissing rules (xs ++ ys) = (firstMissing rules xs).or (firstMissing rules ys) :=
  List.find?_append

theorem of_firstMissing {n : String} (h : firstMissing rules xs = some n) : n ∈ xs ∧ rules n = none := by
  rw [firstMissing] at h
  have hnone := List.find?_some h
  exact ⟨List.mem_of_find?_eq_some h, Option.isNone_iff_eq_none.mp hnone⟩

namespace Compile

/-- `m` looks for the rules of these names one after the other, up to the first that is missing. It fails
for want of that rule, or for a reason `E`. -/
structure Looks (E : CompileError → Prop) (rules : String → Option ℕ) (names : List String)
    (m : Compile α) : Prop where
  ok : ∀ p x, m p = .ok x → firstMissing rules names = none
  error : ∀ p x, m p = .error x → E x ∨ ∃ n, x = .undefinedRule n ∧ firstMissing rules names = some n

namespace Looks

variable {m : Compile α} {f : α → Compile β}

/-- What looks for no rule. -/
theorem of_throws (h : Throws m E) : Looks E rules [] m :=
  ⟨fun _ _ _ => rfl, fun p x hx => .inl (h p x hx)⟩

theorem bind (hm : Looks E rules xs m) (hf : ∀ a, Looks E rules ys (f a)) :
    Looks E rules (xs ++ ys) (m >>= f) := by
  constructor
  · intro p x hx
    obtain ⟨b, q⟩ := x
    obtain ⟨a, r, ha, hb⟩ := bind_eq_ok.mp hx
    rw [firstMissing_append, hm.ok p (a, r) ha, (hf a).ok r (b, q) hb]
    rfl
  · intro p x hx
    rcases bind_eq_error.mp hx with hx | ⟨a, r, ha, hx⟩
    · refine (hm.error p x hx).imp_right fun ⟨n, hn, hfirst⟩ => ⟨n, hn, ?_⟩
      rw [firstMissing_append, hfirst, Option.some_or]
    · refine ((hf a).error r x hx).imp_right fun ⟨n, hn, hfirst⟩ => ⟨n, hn, ?_⟩
      rw [firstMissing_append, hm.ok p (a, r) ha, Option.none_or, hfirst]

/-- Nothing is looked for before. -/
theorem after (hm : Throws m E) (hf : ∀ a, Looks E rules ys (f a)) : Looks E rules ys (m >>= f) :=
  (of_throws hm).bind hf

/-- Nothing is looked for after that. -/
theorem last (hm : Looks E rules xs m) (hf : ∀ a, Throws (f a) E) : Looks E rules xs (m >>= f) := by
  have h : Looks E rules (xs ++ []) (m >>= f) := hm.bind fun a => .of_throws (hf a)
  rwa [List.append_nil] at h

end Looks
end Compile

/-- There is room below the bound for the slots of an expression with `n` nodes: each takes two at
most. -/
def Context.HasRoom (bound : ℤ) (ctx : Context) (n : ℕ) : Prop :=
  -1 ≤ ctx.sp ∧ ctx.sp + 2 * n < bound

theorem Context.HasRoom.mono {ctx' : Context} {m n : ℕ} (hr : ctx.HasRoom bound n) (hm : m < n)
    (hl : ctx.sp ≤ ctx'.sp) (hu : ctx'.sp ≤ ctx.sp + 2) : ctx'.HasRoom bound m := by
  obtain ⟨h1, h2⟩ := hr
  constructor <;> omega

/-- The compiler comes to the references of `e` from left to right, wherever there is room for `e`. -/
def Expr.LooksUp (E : CompileError → Prop) (bound : ℤ) (rules : String → Option ℕ) (e : Expr) : Prop :=
  ∀ (ctx : Context) (s : Scope), ctx.HasRoom bound e.size → s.Inside ctx.sp →
    Looks E rules e.refs (e.compile rules ctx s)

section

variable (hE : ∀ what n, E (.operandOverflow what n)) (hfar : ∀ sp < bound, Scope.Far E sp)

include hE

theorem looks_choice (hes : ∀ e ∈ es, e.LooksUp E bound rules)
    (hr : ctx.HasRoom bound (es.map Expr.size).sum) :
    Looks E rules (es.flatMap Expr.refs) (compileChoice rules es ctx) := by
  induction es with
  | nil =>
    rw [compileChoice]
    exact .of_throws ((throws_intern hE _).bind fun failed => .pure _)
  | cons e es ih =>
    rw [List.map_cons, List.sum_cons] at hr
    obtain ⟨h1, h2⟩ := hr
    have hroom : (ctx.push 0).HasRoom bound e.size := by
      simp only [Context.HasRoom, Context.push]
      omega
    have he := hes e List.mem_cons_self (ctx.push 0) [] hroom .nil
    rw [List.flatMap_cons]
    cases es with
    | nil =>
      rw [compileChoice, List.flatMap_nil, List.append_nil]
      exact he
    | cons e' es =>
      rw [compileChoice]
      have hothers := ih (fun d hd => hes d (List.mem_cons_of_mem _ hd)) ⟨h1, by omega⟩
      exact he.bind fun first => hothers.last fun others =>
        (throws_branch hE _ _ _).bind fun rest => .pure _

theorem looks_next {d : Option Expr} (hd : ∀ e ∈ d, e.LooksUp E bound rules)
    (hr : ∀ e ∈ d, ctx.HasRoom bound e.size) (failed : UInt32) (operand : Code) :
    Looks E rules (d.toList.flatMap Expr.refs) (compileNext rules failed operand d ctx) := by
  cases d with
  | none =>
    rw [compileNext]
    exact .of_throws (.pure _)
  | some d =>
    rw [compileNext, Option.toList_some, List.flatMap_singleton]
    exact (hd d rfl ctx [] (hr d rfl) .nil).last fun delimiter =>
      (throws_branch hE _ _ _).bind fun back => (throws_branch hE _ _ _).bind fun next => .pure _

include hfar

theorem looks_elements (hes : ∀ e ∈ es, e.LooksUp E bound rules)
    (hr : ctx.HasRoom bound (es.map Expr.size).sum) (hs : s.Inside ctx.sp) (failed : UInt32) (n : ℕ) :
    Looks E rules (es.flatMap Expr.refs) (compileElements rules failed es n ctx s) := by
  induction es generalizing n ctx s with
  | nil =>
    rw [compileElements]
    exact .of_throws (throws_collect hE n hs (hfar _ (by simpa using hr.2)))
  | cons e es ih =>
    have hpos := e.size_pos
    rw [List.map_cons, List.sum_cons] at hr
    obtain ⟨h1, h2⟩ := hr
    have hroom : (ctx.push 0).HasRoom bound e.size := by
      simp only [Context.HasRoom, Context.push]
      omega
    have hrest : (ctx.step 1).HasRoom bound (es.map Expr.size).sum := by
      simp only [Context.HasRoom, Context.step]
      omega
    have he := hes e List.mem_cons_self (ctx.push 0) s hroom (by simpa using hs)
    have hothers := ih (fun d hd => hes d (List.mem_cons_of_mem _ hd)) hrest
      (hs.step.bind (by omega) e) (n + 1)
    rw [compileElements, List.flatMap_cons]
    exact he.bind fun first => hothers.last fun others =>
      (throws_dropValues hE _).bind fun drop => (throws_branch hE _ _ _).bind fun rest => .pure _

/-- The compiler comes to the references of an expression in the order in which the check does. -/
theorem Expr.looksUp (e : Expr) : e.LooksUp E bound rules := by
  induction e using Expr.parts_induction with
  | part e hp =>
    intro ctx s hr hs
    have hsize := e.size_eq
    have hroom (d : Expr) (hd : d ∈ e.children) (ctx' : Context) (hl : ctx.sp ≤ ctx'.sp)
        (hu : ctx'.sp ≤ ctx.sp + 2) : ctx'.HasRoom bound d.size :=
      hr.mono (Expr.size_lt hd) hl hu
    have hone (d : Expr) (hd : d ∈ e.children) (ctx' : Context) (s' : Scope) (hl : ctx.sp ≤ ctx'.sp)
        (hu : ctx'.sp ≤ ctx.sp + 2) (hs' : s'.Inside ctx'.sp) :
        Looks E rules ([d].flatMap refs) (d.compile rules ctx' s') := by
      rw [List.flatMap_singleton]
      exact hp d hd ctx' s' (hroom d hd ctx' hl hu) hs'
    have hpush (d : Expr) (hd : d ∈ e.children) (k : ℤ) (h0 : 0 ≤ k) (h2 : k ≤ 2) :=
      hone d hd (ctx.push k) [] (by simpa using h0) (by simpa using h2) .nil
    obtain ⟨hl, hu⟩ := hr
    rw [Expr.refs_eq]
    cases e with
    | named name e =>
      rw [Expr.compile]
      exact .after (throws_intern hE _) fun expected =>
        (hone e List.mem_cons_self ctx s (by simp) (by simp) hs).last fun inner =>
          (throws_branch hE _ _ _).bind fun report => .pure _
    | choice es =>
      rw [Expr.compile]
      have hroom : ctx.HasRoom bound (es.map Expr.size).sum := by
        rw [Expr.children] at hsize
        exact ⟨hl, by omega⟩
      exact looks_choice hE hp hroom
    | action e code =>
      rw [Expr.compile]
      split
      · exact hone e List.mem_cons_self _ _ (by simp) (by simp) .nil
      · have hbind : Scope.Inside (ctx.sp + 2) (e.bind (ctx.sp + 2) []) :=
          Scope.Inside.nil.bind (by omega) e
        have hpos := e.size_pos
        simp only [Expr.children, List.map_cons, List.map_nil, List.sum_singleton] at hsize
        refine (hpush e List.mem_cons_self 1 (by simp) (by simp)).last fun inner => ?_
        refine (throws_intern hE _).bind fun f => ?_
        refine (throws_call hE f 1 hbind (hfar _ (by omega))).bind fun call => ?_
        exact (throws_branch hE _ _ _).bind fun answer => .pure _
    | sequence es =>
      rw [Expr.compile]
      refine .after (throws_intern hE _) fun failed => ?_
      have hstep : (ctx.step 1).HasRoom bound (es.map Expr.size).sum := by
        rw [Expr.children] at hsize
        constructor <;> simp only [Context.step] <;> omega
      exact (looks_elements hE hfar hp hstep hs.step failed 0).last fun body => .pure _
    | labeled label e =>
      rw [Expr.compile]
      exact hpush e List.mem_cons_self 0 (by simp) (by simp)
    | text e =>
      rw [Expr.compile]
      exact (hpush e List.mem_cons_self 1 (by simp) (by simp)).last fun inner =>
        (throws_branch hE _ _ _).bind fun cut => .pure _
    | followedBy e | notFollowedBy e =>
      rw [Expr.compile]
      refine .after (throws_intern hE _) fun undefined => .after (throws_intern hE _) fun failed => ?_
      exact (hpush e List.mem_cons_self 1 (by simp) (by simp)).last fun inner =>
        (throws_branch hE _ _ _).bind fun answer => .pure _
    | guard code | guardNot code =>
      rw [Expr.compile]
      exact .of_throws (throws_guard hE _ _ hs (hfar _ (by omega)))
    | optional e =>
      rw [Expr.compile]
      refine .after (throws_intern hE _) fun null => ?_
      exact (hpush e List.mem_cons_self 0 (by simp) (by simp)).last fun inner =>
        (throws_branch hE _ _ _).bind fun other => .pure _
    | zeroOrMore e =>
      rw [Expr.compile]
      refine .after (throws_intern hE _) fun empty => ?_
      exact (hpush e List.mem_cons_self 1 (by simp) (by simp)).last fun inner =>
        (throws_loop hE _).bind fun more => .pure _
    | oneOrMore e =>
      rw [Expr.compile]
      refine .after (throws_intern hE _) fun empty => .after (throws_intern hE _) fun failed => ?_
      refine (hpush e List.mem_cons_self 1 (by simp) (by simp)).last fun inner => ?_
      exact (throws_loop hE _).bind fun more => (throws_branch hE _ _ _).bind fun rest => .pure _
    | bounded e min max d =>
      rw [Expr.compile]
      refine .after (throws_intern hE _) fun empty => .after (throws_intern hE _) fun failed => ?_
      have hmem (d' : Expr) (hd : d' ∈ d) : d' ∈ (Expr.bounded e min max d).children :=
        List.mem_cons_of_mem _ (by simpa using hd)
      have hfirst := hp e List.mem_cons_self (ctx.push 1) []
        (hroom e List.mem_cons_self _ (by simp) (by simp)) .nil
      have hnext := looks_next hE (fun d' hd => hp d' (hmem d' hd))
        (fun d' hd => hroom d' (hmem d' hd) (ctx.push 2) (by simp) (by simp)) failed
      refine hfirst.bind fun first => (hnext first).last fun next => ?_
      refine (throws_intern hE _).bind fun least => (throws_intern hE _).bind fun most => ?_
      refine (throws_branch hE _ _ _).bind fun more => (throws_loop hE _).bind fun rounds => ?_
      exact (throws_branch hE _ _ _).bind fun enough => .pure _
    | rule name =>
      rw [Expr.compile]
      cases hi : rules name with
      | some i =>
        constructor
        · intro p x hx
          simp [firstMissing, ref?, children, hi]
        · intro p x hx
          cases hx
      | none =>
        constructor
        · intro p x hx
          cases hx
        · intro p x hx
          obtain rfl := Except.error.inj hx
          exact .inr ⟨name, rfl, by simp [firstMissing, ref?, hi]⟩
    | literal value ignoreCase =>
      rw [Expr.compile]
      exact .of_throws (throws_literal hE _ _)
    | charClass k text =>
      rw [Expr.compile]
      refine .of_throws ((throws_intern hE _).bind fun members => ?_)
      exact (throws_intern hE _).bind fun expected => throws_branch hE _ _ _
    | any =>
      rw [Expr.compile]
      exact .of_throws ((throws_intern hE _).bind fun expected => throws_branch hE _ _ _)

theorem looks_rules {rs : List Rule} (hr : ∀ r ∈ rs, 2 * r.body.size ≤ bound) :
    Looks E rules (rs.flatMap (·.body.refs)) (compileRules false rules rs) := by
  induction rs with
  | nil => exact .of_throws (.pure _)
  | cons r rs ih =>
    have hbound := hr r List.mem_cons_self
    have hroom : Context.rule.HasRoom bound r.body.size := by
      simp only [Context.HasRoom, Context.rule]
      omega
    have hfirst : Looks E rules r.body.refs (r.compile false rules) :=
      (r.body.looksUp hE hfar .rule [] hroom .nil).last fun code => .pure _
    exact hfirst.bind fun c => (ih fun r' h => hr r' (List.mem_cons_of_mem _ h)).last fun cs => .pure _

end

/-- The code of a rule passes the check for its height. -/
theorem checkRule_eq_ok {p q : Pool} {c : Code} (hc : e.compile rules .rule [] p = .ok (c, q)) :
    Code.checkRule c = .ok () := by
  have hshape := (e.yields_shape .rule [] p c q hc).2 List.prefix_rfl
  let ok : ℕ → ℕ → Prop := fun h n => n < h
  have hpush : e.Pushes ok (2 ^ 31 - 1) q.consts rules := e.pushes fun _ _ h => h
  have hbal := hpush .rule [] c 0 hshape .nil
  have hheight := hbal.height_eq_ok (by omega) 0
  rw [Code.checkRule, Code.height]
  rw [Nat.cast_zero] at hheight
  rw [hheight]
  rfl

theorem Rule.compile_verify (r : Rule) : r.compile true rules = r.compile false rules := by
  refine Compile.bind_congr fun p c q hc => ?_
  rw [checkRule_eq_ok hc]
  rfl

theorem compileRules_verify (rs : List Rule) :
    compileRules true rules rs = compileRules false rules rs := by
  induction rs with
  | nil => rfl
  | cons r rs ih => rw [compileRules, compileRules, r.compile_verify, ih]

namespace Grammar

/-- The number of nodes of all rules. -/
def size (g : Grammar) : ℕ := (g.rules.map (·.body.size)).sum

variable {g : Grammar}

theorem size_body_le {r : Rule} (hr : r ∈ g.rules) : r.body.size ≤ g.size :=
  List.le_sum_of_mem (List.mem_map_of_mem hr)

/-- Code is never refused for its height, so checking makes no difference. -/
theorem generate_verify (g : Grammar) (verify : Bool) : g.generate verify = g.generate false := by
  cases verify with
  | false => rfl
  | true => rw [generate, generate, compileRules_verify]

/-- A grammar is refused for want of a rule or for a reason `E`, the former where the check refuses it. -/
theorem looks_generate (hE : ∀ what n, E (.operandOverflow what n))
    (hfar : ∀ sp < bound, Scope.Far E sp) (hg : 2 * g.size ≤ bound) :
    (∀ p, g.generate false = .ok p → firstMissing g.ruleIndex? g.refs = none) ∧
      ∀ x, g.generate false = .error x →
        E x ∨ ∃ n, x = .undefinedRule n ∧ firstMissing g.ruleIndex? g.refs = some n := by
  have hrules : Looks E g.ruleIndex? g.refs (compileRules false g.ruleIndex? g.rules) := by
    refine looks_rules hE hfar fun r hr => ?_
    have := size_body_le hr
    omega
  unfold generate
  split
  · constructor
    · intro p hp
      cases hp
    · intro x hx
      obtain rfl := Except.error.inj hx
      exact .inl (hE _ _)
  · constructor
    · intro p hp
      obtain ⟨y, hy, -⟩ := except_bind_eq_ok.mp hp
      exact hrules.ok {} y hy
    · refine except_bind_throws (E := fun x => E x ∨ _) (hrules.error {}) ?_
      intro _ _ h
      cases h

theorem generate_eq_error (hg : g.size < 2 ^ 28) {x : CompileError}
    (hx : g.generate false = .error x) :
    (∃ n ∈ g.refs, g.ruleIndex? n = none ∧ x = .undefinedRule n) ∨
      ∃ what n, x = .operandOverflow what n := by
  let E : CompileError → Prop := fun x => ∃ what n, x = .operandOverflow what n
  have hE : ∀ what n, E (.operandOverflow what n) := fun what n => ⟨what, n, rfl⟩
  have hfar : ∀ sp < (UInt32.size : ℤ), Scope.Far E sp := fun _ => .of_lt
  have hbound : 2 * (g.size : ℤ) ≤ UInt32.size := by
    simp only [UInt32.size]
    omega
  rcases (looks_generate hE hfar hbound).2 x hx with h | ⟨n, rfl, hn⟩
  · exact .inr h
  · obtain ⟨hmem, hnone⟩ := of_firstMissing hn
    exact .inl ⟨n, hmem, hnone, rfl⟩

/-- Nothing refers to a rule that is not there once the checks are passed. -/
theorem ruleIndex?_ne_none (hm : g.missingRule? = none) : ∀ n ∈ g.refs, g.ruleIndex? n ≠ none := by
  intro n hn h
  rw [missingRule?, Option.map_eq_none_iff, List.find?_eq_none] at hm
  exact hm n hn (by rw [h]; rfl)

/-- A grammar of fewer than 2²⁸ nodes has a program, or lacks a rule that it refers to, or has a
number too large for a word: its code is never refused for its height or for a slot outside the
stack, whether it is checked or not. -/
theorem generate_total (hg : g.size < 2 ^ 28) (verify : Bool) :
    ((∃ p, g.generate verify = .ok p) ∨
      (∃ n ∈ g.refs, g.ruleIndex? n = none ∧ g.generate verify = .error (.undefinedRule n)) ∨
      ∃ what n, g.generate verify = .error (.operandOverflow what n)) ∧
    g.generate true = g.generate false ∧
    (g.missingRule? = none → g.duplicateRule? = none →
      (∃ p, g.generate verify = .ok p ∧ g.compile verify = .ok p) ∨
      ∃ what n, g.generate verify = .error (.operandOverflow what n) ∧
        g.compile verify = .error (.compile (.operandOverflow what n))) := by
  have hv := g.generate_verify verify
  refine ⟨?_, g.generate_verify true, ?_⟩
  · rw [hv]
    cases hx : g.generate false with
    | ok p => exact .inl ⟨p, rfl⟩
    | error x =>
      rcases generate_eq_error hg hx with ⟨n, hn, h, rfl⟩ | ⟨what, n, rfl⟩
      · exact .inr (.inl ⟨n, hn, h, rfl⟩)
      · exact .inr (.inr ⟨what, n, rfl⟩)
  · intro hm hd
    have hf : g.fault? = none := by
      rw [fault?, hm, hd]
      rfl
    rw [compile, hf, hv]
    cases hx : g.generate false with
    | ok p => exact .inl ⟨p, rfl, rfl⟩
    | error x =>
      rcases generate_eq_error hg hx with ⟨n, hn, h, rfl⟩ | ⟨what, n, rfl⟩
      · exact absurd h (ruleIndex?_ne_none hm n hn)
      · exact .inr ⟨what, n, rfl, rfl⟩

/-- A list of letters between commas is within the bound and compiles. -/
theorem generate_total_letters :
    let g : Grammar := ⟨[⟨"list", .bounded (.rule "letter") none none (some (.literal "," false))⟩,
      ⟨"letter", .any⟩]⟩
    g.size < 2 ^ 28 ∧ g.missingRule? = none ∧ g.duplicateRule? = none ∧
      ∃ p, g.generate true = .ok p ∧ g.compile true = .ok p := by
  intro g
  have hg : g.size < 2 ^ 28 := by decide
  have hm : g.missingRule? = none := by decide +kernel
  have hd : g.duplicateRule? = none := by decide +kernel
  have hok : (g.generate true).isOk = true := by decide +kernel
  refine ⟨hg, hm, hd, ?_⟩
  obtain ⟨-, -, h⟩ := generate_total hg true
  rcases h hm hd with h | ⟨what, n, hx, -⟩
  · exact h
  · rw [hx] at hok
    cases hok

end Grammar
end PegMachine
