import PegMachine.Proofs.Compile.Shape

/-! How compiled code is put together: out of instructions, calls, branches and loops. -/
namespace PegMachine

variable {K : List Constant} {rules : String → Option ℕ} {ctx : Context} {s : Scope} {sp : ℤ}
  {e : Expr} {es : List Expr} {failed : UInt32} {a b c yes no body br lp : Code} {n : ℕ}
  {xs ys : List String}

namespace Expr

mutual

/-- The references in the order in which the code has their numbers. The code of a repetition has that
of its operand twice: for the first time round, and in the loop. -/
def coded : Expr → List String
  | .rule name => [name]
  | .choice es | .sequence es => codedAll es
  | .zeroOrMore e | .oneOrMore e => e.coded ++ e.coded
  | .bounded e _ _ d => e.coded ++ (codedOpt d ++ e.coded)
  | .named _ e | .action e _ | .labeled _ e | .text e | .followedBy e | .notFollowedBy e
  | .optional e => e.coded
  | .guard _ | .guardNot _ | .literal .. | .charClass .. | .any => []

def codedAll : List Expr → List String
  | [] => []
  | e :: es => e.coded ++ codedAll es

def codedOpt : Option Expr → List String
  | none => []
  | some e => e.coded

end

theorem codedAll_eq_flatMap (es : List Expr) : codedAll es = es.flatMap coded := by
  induction es with
  | nil => rfl
  | cons e es ih => rw [codedAll, ih, List.flatMap_cons]

theorem codedOpt_eq_flatMap (d : Option Expr) : codedOpt d = d.toList.flatMap coded := by
  cases d with
  | none => rfl
  | some d => rw [codedOpt, Option.toList_some, List.flatMap_singleton]

/-- No reference is lost, and none is added. -/
theorem mem_coded {name : String} (e : Expr) : name ∈ e.coded ↔ name ∈ e.refs := by
  induction e using parts_induction with
  | part e ih =>
    have hparts : name ∈ e.children.flatMap coded ↔ name ∈ e.children.flatMap refs := by
      simp only [List.mem_flatMap]
      exact exists_congr fun d => and_congr_right fun hd => ih d hd
    rw [refs_eq]
    cases e with
    | choice es | sequence es =>
      rw [coded, codedAll_eq_flatMap]
      exact hparts
    | bounded e min max d =>
      have hroot : (Expr.bounded e min max d).ref? = none := rfl
      rw [hroot, Option.toList_none, List.nil_append, ← hparts, coded, codedOpt_eq_flatMap, children,
        List.flatMap_cons]
      simp only [List.mem_append]
      tauto
    | zeroOrMore e | oneOrMore e =>
      rw [coded, List.mem_append, or_self]
      simpa [ref?, children] using hparts
    | rule other => simp [coded, ref?, children]
    | guard | guardNot | literal | charClass | any => simp [coded, ref?, children]
    | named | action | labeled | text | followedBy | notFollowedBy | optional =>
      simpa [coded, ref?, children] using hparts

end Expr

/-- The number of the rule that an instruction enters. -/
def Instr.rule? : Instr → Option UInt32
  | .rule i => some i
  | _ => none

/-- `Code.Assembled rules xs c`: `c` is put together as the compiler does it, and has the numbers of the
rules of the names `xs`, in this order. The body of a loop begins with an instruction. -/
inductive Code.Assembled (rules : String → Option ℕ) : List String → Code → Prop
  | quiet (is : List Instr) (h : is.filterMap Instr.rule? = []) : Assembled rules [] (seq is)
  | rule {name : String} {i : ℕ} (hi : rules name = some i) :
      Assembled rules [name] (seq [.rule (UInt32.ofNat i)])
  | call {f : UInt32} {pops : ℕ} {s : Scope} {sp : ℤ} {c : Code} (hc : Code.call f pops s sp = .ok c) :
      Assembled rules [] c
  | append {xs ys : List String} {a b : Code} (ha : Assembled rules xs a) (hb : Assembled rules ys b) :
      Assembled rules (xs ++ ys) (a ++ b)
  | branch {xs ys : List String} {t : Test} {yes no br : Code}
      (h : Code.branch t.words yes no = .ok br) (hy : Assembled rules xs yes)
      (hn : Assembled rules ys no) : Assembled rules (xs ++ ys) br
  | loop {xs : List String} {i : Instr} {is : List Instr} {body lp : Code}
      (h : Code.loop (op .whileMatched) (seq (i :: is) ++ body) = .ok lp)
      (hi : (i :: is).filterMap Instr.rule? = []) (hb : Assembled rules xs body) :
      Assembled rules xs lp

namespace Code.Assembled

/-- No rule is entered before. -/
theorem after (ha : a.Assembled rules []) (hb : b.Assembled rules xs) : (a ++ b).Assembled rules xs :=
  ha.append hb

/-- No rule is entered after that. -/
theorem before (ha : a.Assembled rules xs) (hb : b.Assembled rules []) :
    (a ++ b).Assembled rules xs := by
  have h := ha.append hb
  rwa [List.append_nil] at h

/-- Only the first body enters rules. -/
theorem onYes {t : Test} (h : Code.branch t.words yes no = .ok br) (hy : yes.Assembled rules xs)
    (hn : no.Assembled rules []) : br.Assembled rules xs := by
  have h := branch h hy hn
  rwa [List.append_nil] at h

/-- Only the second body enters rules. -/
theorem onNo {t : Test} (h : Code.branch t.words yes no = .ok br) (hy : yes.Assembled rules [])
    (hn : no.Assembled rules xs) : br.Assembled rules xs :=
  branch h hy hn

theorem nil : Assembled rules [] [] :=
  quiet [] rfl

end Code.Assembled

theorem LiteralCode.assembled {value : String} {ignoreCase : Bool}
    (hc : LiteralCode K value ignoreCase c) : c.Assembled rules [] := by
  cases hc with
  | empty => exact .quiet _ rfl
  | folded _ _ _ _ hc | exact _ _ _ hc => exact .branch hc (.quiet _ rfl) (.quiet _ rfl)

theorem GuardCode.assembled {negated : Bool} {code : String} (hc : GuardCode K negated code ctx s c) :
    c.Assembled rules [] := by
  obtain ⟨_, _, _, hc, ha⟩ := hc
  exact .append (.append (.quiet _ rfl) (.call hc)) (.branch ha (.quiet _ rfl) (.quiet _ rfl))

theorem CollectCode.assembled {action : Option String} (hc : CollectCode K n sp s action c) :
    c.Assembled rules [] := by
  cases hc with
  | array => exact .quiet _ rfl
  | action _ _ hc => exact .append (.append (.quiet _ rfl) (.call hc)) (.quiet _ rfl)

theorem DropCode.assembled (hc : DropCode n c) : c.Assembled rules [] := by
  cases hc with
  | one => exact .quiet _ rfl
  | many => exact .quiet _ rfl

/-- The code of `e` is put together so, with the numbers of the rules that `e` refers to. -/
def Expr.IsAssembled (K : List Constant) (rules : String → Option ℕ) (e : Expr) : Prop :=
  ∀ ctx s c, e.Shape K rules ctx s c → c.Assembled rules e.coded

theorem ChoiceShape.assembled (he : ∀ e ∈ es, e.IsAssembled K rules)
    (hc : ChoiceShape K rules es ctx c) : c.Assembled rules (Expr.codedAll es) := by
  induction es generalizing c with
  | nil =>
    cases hc with
    | nil => exact .quiet _ rfl
  | cons e es ih =>
    have hfirst := he e List.mem_cons_self
    cases hc with
    | last h1 =>
      rw [Expr.codedAll, Expr.codedAll, List.append_nil]
      exact hfirst _ _ _ h1
    | cons h1 ho hr =>
      have hothers := ih (fun d hd => he d (List.mem_cons_of_mem _ hd)) ho
      exact .append (hfirst _ _ _ h1) (.onYes hr (.after (.quiet _ rfl) hothers) .nil)

theorem ElementsShape.assembled (he : ∀ e ∈ es, e.IsAssembled K rules)
    (hc : ElementsShape K rules failed es n ctx s c) : c.Assembled rules (Expr.codedAll es) := by
  induction es generalizing n ctx s c with
  | nil =>
    cases hc with
    | nil hc => exact hc.assembled
  | cons e es ih =>
    cases hc with
    | cons h1 ho hd hr =>
      have hfirst := he e List.mem_cons_self _ _ _ h1
      have hothers := ih (fun d hd => he d (List.mem_cons_of_mem _ hd)) ho
      exact .append hfirst (.onYes hr hothers (.append hd.assembled (.quiet _ rfl)))

theorem NextShape.assembled {operand : Code} {d : Option Expr} (he : ∀ e ∈ d, e.IsAssembled K rules)
    (ho : operand.Assembled rules xs) (hc : NextShape K rules failed operand d ctx c) :
    c.Assembled rules (Expr.codedOpt d ++ xs) := by
  cases hc with
  | none => exact ho
  | some hd hb hn =>
    have hback : Code.Assembled rules [] _ := .branch hb (.quiet _ rfl) (.quiet _ rfl)
    have hnext : Code.Assembled rules xs _ :=
      .onYes hn (.before (.after (.quiet _ rfl) ho) hback) (.quiet _ rfl)
    exact .append (.after (.quiet _ rfl) (he _ rfl _ _ _ hd)) hnext

/-- The code of an expression is put together from the codes of its parts. -/
theorem Expr.assembled_of_parts (hp : ∀ d ∈ e.children, d.IsAssembled K rules) :
    e.IsAssembled K rules := by
  intro ctx s c hc
  cases hc with
  | named _ he hr =>
    have hinner := hp _ List.mem_cons_self _ _ _ he
    have hreport : Code.Assembled rules [] _ := .branch hr (.quiet _ rfl) .nil
    exact .before (.before (.after (.quiet _ rfl) hinner) (.quiet _ rfl)) hreport
  | choice hc => exact hc.assembled hp
  | actionOfElements _ he => exact hp _ List.mem_cons_self _ _ _ he
  | action _ he _ hc ha =>
    have hinner := hp _ List.mem_cons_self _ _ _ he
    have hanswer : Code.Assembled rules [] _ := .branch ha (.append (.quiet _ rfl) (.call hc)) .nil
    exact .before (.before (.after (.quiet _ rfl) hinner) hanswer) (.quiet _ rfl)
  | sequence _ hb => exact .after (.quiet _ rfl) (hb.assembled hp)
  | labeled he => exact hp _ List.mem_cons_self _ _ _ he
  | text he hc =>
    have hinner := hp _ List.mem_cons_self _ _ _ he
    have hcut : Code.Assembled rules [] _ := .branch hc (.quiet _ rfl) .nil
    exact .before (.before (.after (.quiet _ rfl) hinner) hcut) (.quiet _ rfl)
  | followedBy _ _ he ha | notFollowedBy _ _ he ha =>
    have hinner := hp _ List.mem_cons_self _ _ _ he
    have hanswer : Code.Assembled rules [] _ := .branch ha (.quiet _ rfl) (.quiet _ rfl)
    exact .before (.before (.after (.quiet _ rfl) hinner) (.quiet _ rfl)) hanswer
  | guard hc | guardNot hc => exact hc.assembled
  | optional _ he ho =>
    have hinner := hp _ List.mem_cons_self _ _ _ he
    exact .before hinner (.branch ho (.quiet _ rfl) .nil)
  | zeroOrMore _ he hm =>
    have hinner := hp _ List.mem_cons_self _ _ _ he
    have hmore := Code.Assembled.loop hm rfl hinner
    exact .before (.append (.after (.quiet _ rfl) hinner) hmore) (.quiet _ rfl)
  | oneOrMore _ _ he hm hr =>
    have hinner := hp _ List.mem_cons_self _ _ _ he
    have hmore := Code.Assembled.loop hm rfl hinner
    have hrest := Code.Assembled.onYes hr (.before hmore (.quiet _ rfl)) (.quiet _ rfl)
    exact .append (.after (.quiet _ rfl) hinner) hrest
  | bounded _ _ _ _ he hn hm hr ho =>
    have hfirst := hp _ List.mem_cons_self _ _ _ he
    have hdelim := fun d hd => hp d (List.mem_cons_of_mem _ (Option.mem_toList.mpr hd))
    have hmore := Code.Assembled.onNo hm (.quiet _ rfl) (hn.assembled hdelim hfirst)
    have hrounds := Code.Assembled.loop hr rfl hmore
    refine .before (.before (.append (.after (.quiet _ rfl) hfirst) hrounds) (.quiet _ rfl)) ?_
    exact .branch ho (.quiet _ rfl) .nil
  | rule hi => exact .rule hi
  | literal hc => exact hc.assembled
  | charClass _ _ hc | any _ hc => exact .branch hc (.quiet _ rfl) (.quiet _ rfl)

theorem Expr.assembled (e : Expr) :
    e.IsAssembled K rules := by
  induction e using Expr.parts_induction with
  | part e ih => exact e.assembled_of_parts ih

end PegMachine
