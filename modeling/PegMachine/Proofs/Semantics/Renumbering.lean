import PegMachine.Proofs.Compile.Shape
import PegMachine.Proofs.Grammar.Induction
import PegMachine.Proofs.Machine.Alike

/-! The code of an expression in two programs that number their constants and rules differently. The
expression alone decides over the instructions, so the two pieces of code run alike. -/
namespace PegMachine

variable {σ : Type} {A B : Activation σ} {rules rules' : String → Option ℕ} {ctx : Context} {s : Scope}
  {a b : Code} {e : Expr} {es : List Expr} {failed failed' : UInt32} {n : ℕ}

/-- The code of the expression in the one program and that in the other run alike. -/
def Expr.RunsAlike (A B : Activation σ) (rules rules' : String → Option ℕ) (e : Expr) : Prop :=
  ∀ ctx s a b, e.Shape A.env.program.consts rules ctx s a →
    e.Shape B.env.program.consts rules' ctx s b → Alike A B a b

section

variable (h : A.Beside B)

include h

theorem DropCode.alike (ha : DropCode n a) (hb : DropCode n b) : Alike A B a b := by
  cases ha with
  | one =>
    cases hb with
    | one => exact .same h rfl
    | many hk => exact .last h [] rfl (.pop_popN hk)
  | many hk =>
    cases hb with
    | one => exact .last h [] rfl (.symm (.pop_popN hk))
    | many hk' =>
      obtain rfl := UInt32.toNat_inj.mp (hk.trans hk'.symm)
      exact .same h rfl

theorem NextShape.alike {operand operand' : Code} {d : Option Expr}
    (hes : ∀ e ∈ d, e.RunsAlike A B rules rules') (hd : A.Has failed .failed)
    (hd' : B.Has failed' .failed) (ho : Alike A B operand operand')
    (ha : NextShape A.env.program.consts rules failed operand d ctx a)
    (hb : NextShape B.env.program.consts rules' failed' operand' d ctx b) : Alike A B a b := by
  cases ha with
  | none =>
    cases hb with
    | none => exact ho
  | some h1 hk hn =>
    cases hb with
    | some h1' hk' hn' =>
      have hdelimiter := hes _ rfl _ _ _ _ h1 h1'
      have hgone := Alike.last h [.pop, .popPos] rfl (.push hd hd' rfl)
      have hback := Alike.branch h hk hk' (.self h rfl) hgone (.same h rfl)
      have hnext := Alike.branch h hn hn' (.self h rfl)
        (((Alike.same h rfl).append ho).append hback) (.same h rfl)
      exact ((Alike.same h rfl).append hdelimiter).append hnext

variable (hA : A.env.program.consts.length ≤ UInt32.size)
  (hB : B.env.program.consts.length ≤ UInt32.size)

include hA hB

theorem LiteralCode.alike {value : String} {ignoreCase : Bool}
    (ha : LiteralCode A.env.program.consts value ignoreCase a)
    (hb : LiteralCode B.env.program.consts value ignoreCase b) : Alike A B a b := by
  cases ha with
  | empty hv ht =>
    cases hb with
    | empty _ ht' => exact .last h [] rfl (.push (ht.has hA) (ht'.has hB) rfl)
    | folded hv' | exact hv' =>
      rw [hv] at hv'
      cases hv'
  | folded hv ht hx hn hc =>
    cases hb with
    | empty hv' =>
      rw [hv] at hv'
      cases hv'
    | folded _ ht' hx' hn' hc' =>
      obtain rfl := UInt32.toNat_inj.mp (hn.trans hn'.symm)
      have hfail := Instr.Alike.fail (hx.has hA) (hx'.has hB)
      exact .branch h hc hc' (.folded h (ht.has hA) (ht'.has hB)) (.same h rfl) (.last h [] rfl hfail)
  | exact hv ht hx hc =>
    cases hb with
    | empty hv' =>
      rw [hv] at hv'
      cases hv'
    | exact _ ht' hx' hc' =>
      have haccept := Instr.Alike.acceptString (ht.has hA) (ht'.has hB)
      have hfail := Instr.Alike.fail (hx.has hA) (hx'.has hB)
      exact .branch h hc hc' (.string h (ht.has hA) (ht'.has hB)) (.last h [] rfl haccept)
        (.last h [] rfl hfail)

theorem GuardCode.alike {negated : Bool} {code : String}
    (ha : GuardCode A.env.program.consts negated code ctx s a)
    (hb : GuardCode B.env.program.consts negated code ctx s b) : Alike A B a b := by
  cases ha with
  | intro hf hu hd hc ha =>
    cases hb with
    | intro hf' hu' hd' hc' ha' =>
      have hcall := Alike.call h hc hc' (hf.has hA) (hf'.has hB)
      have hyes := Alike.last h [.pop] rfl (.push (hu.has hA) (hu'.has hB) rfl)
      have hno := Alike.last h [.pop] rfl (.push (hd.has hA) (hd'.has hB) rfl)
      refine ((Alike.same h rfl).append hcall).append (.branch h ha ha' (.self h rfl) ?_ ?_)
      · cases negated
        · exact hyes
        · exact hno
      · cases negated
        · exact hno
        · exact hyes

theorem CollectCode.alike {sp : ℤ} {action : Option String}
    (ha : CollectCode A.env.program.consts n sp s action a)
    (hb : CollectCode B.env.program.consts n sp s action b) : Alike A B a b := by
  cases ha with
  | array hn =>
    cases hb with
    | array hn' =>
      obtain rfl := UInt32.toNat_inj.mp (hn.trans hn'.symm)
      exact .same h rfl
  | action hn hf hc =>
    cases hb with
    | action hn' hf' hc' =>
      obtain rfl := UInt32.toNat_inj.mp (hn.trans hn'.symm)
      have hcall := Alike.call h hc hc' (hf.has hA) (hf'.has hB)
      exact ((Alike.same h rfl).append hcall).append (.same h rfl)

theorem ChoiceShape.alike (hes : ∀ e ∈ es, e.RunsAlike A B rules rules')
    (ha : ChoiceShape A.env.program.consts rules es ctx a)
    (hb : ChoiceShape B.env.program.consts rules' es ctx b) : Alike A B a b := by
  induction es generalizing a b with
  | nil =>
    cases ha with
    | nil hd =>
      cases hb with
      | nil hd' => exact .last h [] rfl (.push (hd.has hA) (hd'.has hB) rfl)
  | cons e es ih =>
    have he := hes e List.mem_cons_self
    cases ha with
    | last h1 =>
      cases hb with
      | last h1' => exact he _ _ _ _ h1 h1'
    | cons h1 ho hr =>
      cases hb with
      | cons h1' ho' hr' =>
        have hothers := ih (fun d hd => hes d (List.mem_cons_of_mem _ hd)) ho ho'
        have hrest := Alike.branch h hr hr' (.self h rfl) ((Alike.same h rfl).append hothers) .nil
        exact (he _ _ _ _ h1 h1').append hrest

theorem ElementsShape.alike (hes : ∀ e ∈ es, e.RunsAlike A B rules rules')
    (hd : A.Has failed .failed) (hd' : B.Has failed' .failed)
    (ha : ElementsShape A.env.program.consts rules failed es n ctx s a)
    (hb : ElementsShape B.env.program.consts rules' failed' es n ctx s b) : Alike A B a b := by
  induction es generalizing n ctx s a b with
  | nil =>
    cases ha with
    | nil hc =>
      cases hb with
      | nil hc' => exact hc.alike h hA hB hc'
  | cons e es ih =>
    cases ha with
    | cons h1 ho hdrop hr =>
      cases hb with
      | cons h1' ho' hdrop' hr' =>
        have hothers := ih (fun d hm => hes d (List.mem_cons_of_mem _ hm)) ho ho'
        have hback := Alike.last h [.popPos] rfl (.push hd hd' rfl)
        have hrest := Alike.branch h hr hr' (.self h rfl) hothers ((hdrop.alike h hdrop').append hback)
        exact (hes e List.mem_cons_self _ _ _ _ h1 h1').append hrest

/-- The code of an expression runs alike in both programs, if the rules it refers to do. -/
theorem Expr.runsAlike (hrule : ∀ name i j, rules name = some i → rules' name = some j →
      A.rule (UInt32.ofNat i).toNat = B.rule (UInt32.ofNat j).toNat) (e : Expr) :
    e.RunsAlike A B rules rules' := by
  induction e with
  | named name e ih =>
    intro ctx s a b ha hb
    cases ha with
    | named hx he hr =>
      cases hb with
      | named hx' he' hr' =>
        have hfail := Instr.Alike.fail (hx.has hA) (hx'.has hB)
        have hyes := Alike.last h [.pop] rfl hfail
        have hreport := Alike.branch h hr hr' (.self h rfl) hyes .nil
        have hinner := ih _ _ _ _ he he'
        exact (((Alike.same h rfl).append hinner).append (.same h rfl)).append hreport
  | choice es ih =>
    intro ctx s a b ha hb
    cases ha with
    | choice hc =>
      cases hb with
      | choice hc' => exact hc.alike h hA hB ih hc'
  | action e code ih =>
    intro ctx s a b ha hb
    cases ha with
    | actionOfElements hl he =>
      cases hb with
      | actionOfElements _ he' => exact ih _ _ _ _ he he'
      | action hl' =>
        rw [hl] at hl'
        cases hl'
    | action hl he hf hc hr =>
      cases hb with
      | actionOfElements hl' =>
        rw [hl] at hl'
        cases hl'
      | action _ he' hf' hc' hr' =>
        have hcall := Alike.call h hc hc' (hf.has hA) (hf'.has hB)
        have hanswer := Alike.branch h hr hr' (.self h rfl) ((Alike.same h rfl).append hcall) .nil
        have hinner := ih _ _ _ _ he he'
        exact (((Alike.same h rfl).append hinner).append hanswer).append (.same h rfl)
  | sequence es ih =>
    intro ctx s a b ha hb
    cases ha with
    | sequence hd hc =>
      cases hb with
      | sequence hd' hc' =>
        exact (Alike.same h rfl).append (hc.alike h hA hB ih (hd.has hA) (hd'.has hB) hc')
  | labeled label e ih =>
    intro ctx s a b ha hb
    cases ha with
    | labeled he =>
      cases hb with
      | labeled he' => exact ih _ _ _ _ he he'
  | text e ih =>
    intro ctx s a b ha hb
    cases ha with
    | text he hc =>
      cases hb with
      | text he' hc' =>
        have hcut := Alike.branch h hc hc' (.self h rfl) (.same h rfl) .nil
        have hinner := ih _ _ _ _ he he'
        exact (((Alike.same h rfl).append hinner).append hcut).append (.same h rfl)
  | followedBy e ih =>
    intro ctx s a b ha hb
    cases ha with
    | followedBy hu hd he hr =>
      cases hb with
      | followedBy hu' hd' he' hr' =>
        have hyes := Alike.last h [.pop, .popPos] rfl (.push (hu.has hA) (hu'.has hB) rfl)
        have hno := Alike.last h [.pop, .pop] rfl (.push (hd.has hA) (hd'.has hB) rfl)
        have hanswer := Alike.branch h hr hr' (.self h rfl) hyes hno
        have hinner := ih _ _ _ _ he he'
        exact (((Alike.same h rfl).append hinner).append (.same h rfl)).append hanswer
  | notFollowedBy e ih =>
    intro ctx s a b ha hb
    cases ha with
    | notFollowedBy hu hd he hr =>
      cases hb with
      | notFollowedBy hu' hd' he' hr' =>
        have hyes := Alike.last h [.pop, .pop] rfl (.push (hu.has hA) (hu'.has hB) rfl)
        have hno := Alike.last h [.pop, .popPos] rfl (.push (hd.has hA) (hd'.has hB) rfl)
        have hanswer := Alike.branch h hr hr' (.self h rfl) hyes hno
        have hinner := ih _ _ _ _ he he'
        exact (((Alike.same h rfl).append hinner).append (.same h rfl)).append hanswer
  | guard code =>
    intro ctx s a b ha hb
    cases ha with
    | guard hc =>
      cases hb with
      | guard hc' => exact hc.alike h hA hB hc'
  | guardNot code =>
    intro ctx s a b ha hb
    cases ha with
    | guardNot hc =>
      cases hb with
      | guardNot hc' => exact hc.alike h hA hB hc'
  | optional e ih =>
    intro ctx s a b ha hb
    cases ha with
    | optional hn he ho =>
      cases hb with
      | optional hn' he' ho' =>
        have hnull := Alike.last h [.pop] rfl (.push (hn.has hA) (hn'.has hB) rfl)
        exact (ih _ _ _ _ he he').append (.branch h ho ho' (.self h rfl) hnull .nil)
  | zeroOrMore e ih =>
    intro ctx s a b ha hb
    cases ha with
    | zeroOrMore hy he hm =>
      cases hb with
      | zeroOrMore hy' he' hm' =>
        have hinner := ih _ _ _ _ he he'
        have hempty := Alike.last h [] rfl (.push (hy.has hA) (hy'.has hB) rfl)
        have hmore := Alike.loop h hm hm' ((Alike.same h rfl).append hinner)
        exact ((hempty.append hinner).append hmore).append (.same h rfl)
  | oneOrMore e ih =>
    intro ctx s a b ha hb
    cases ha with
    | oneOrMore hy hd he hm hr =>
      cases hb with
      | oneOrMore hy' hd' he' hm' hr' =>
        have hinner := ih _ _ _ _ he he'
        have hempty := Alike.last h [] rfl (.push (hy.has hA) (hy'.has hB) rfl)
        have hmore := Alike.loop h hm hm' ((Alike.same h rfl).append hinner)
        have hnone := Alike.last h [.pop, .pop] rfl (.push (hd.has hA) (hd'.has hB) rfl)
        have hrest := Alike.branch h hr hr' (.self h rfl) (hmore.append (.same h rfl)) hnone
        exact (hempty.append hinner).append hrest
  | bounded e min max d ih ihd =>
    intro ctx s a b ha hb
    cases ha with
    | bounded hy hd hl hg he hn hm hr ho =>
      cases hb with
      | bounded hy' hd' hl' hg' he' hn' hm' hr' ho' =>
        have hfirst := ih _ _ _ _ he he'
        have hnext := hn.alike h ihd (hd.has hA) (hd'.has hB) hfirst hn'
        have hempty := Alike.last h [] rfl (.push (hy.has hA) (hy'.has hB) rfl)
        have hfull := Alike.last h [] rfl (.push (hd.has hA) (hd'.has hB) rfl)
        have hmore := Alike.branch h hm hm' (.self h rfl) hfull hnext
        have hmost := Alike.last h [.append] rfl (.push (hg.has hA) (hg'.has hB) rfl)
        have hrounds := Alike.loop h hr hr' (hmost.append hmore)
        have hleast := Alike.last h [.pop] rfl (.push (hl.has hA) (hl'.has hB) rfl)
        have hshort := Alike.last h [.pop] rfl (.push (hd.has hA) (hd'.has hB) rfl)
        have henough := Alike.branch h ho ho' (.self h rfl) hshort .nil
        exact (((hempty.append hfirst).append hrounds).append hleast).append henough
  | rule name =>
    intro ctx s a b ha hb
    cases ha with
    | rule hi =>
      cases hb with
      | rule hj => exact .last h [] rfl (.rule (hrule _ _ _ hi hj))
  | literal value ignoreCase =>
    intro ctx s a b ha hb
    cases ha with
    | literal hc =>
      cases hb with
      | literal hc' => exact hc.alike h hA hB hc'
  | charClass k text =>
    intro ctx s a b ha hb
    cases ha with
    | charClass hm hx hc =>
      cases hb with
      | charClass hm' hx' hc' =>
        have hfail := Instr.Alike.fail (hx.has hA) (hx'.has hB)
        exact .branch h hc hc' (.charClass h (hm.has hA) (hm'.has hB)) (.same h rfl)
          (.last h [] rfl hfail)
  | any =>
    intro ctx s a b ha hb
    cases ha with
    | any hx hc =>
      cases hb with
      | any hx' hc' =>
        have hfail := Instr.Alike.fail (hx.has hA) (hx'.has hB)
        exact .branch h hc hc' (.self h rfl) (.same h rfl) (.last h [] rfl hfail)

end
end PegMachine
