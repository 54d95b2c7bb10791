import PegMachine.Proofs.Semantics.Nodes

/-! The code of an expression emulates its walk. -/
namespace PegMachine

variable {σ : Type} {A : Activation σ} {K : List Constant} {rules : String → Option ℕ}
  {wrule : String → Walk σ Value} {ctx : Context} {s : Scope} {ls : Labels Value} {S : Stack}
  {c : Code} {e : Expr} {es : List Expr} {failed : UInt32} {p : ℕ}

open Walk

theorem Expr.Shape.whole (hc : e.Shape K rules ctx s c) : c.Whole := (hc.balanced 0).whole

/-- The code of `e` emulates its walk wherever the labels are in scope. A sequence that has to call
an action itself is left to the action. -/
def Expr.Sound (A : Activation σ) (rules : String → Option ℕ) (wrule : String → Walk σ Value)
    (e : Expr) : Prop :=
  ∀ ctx s c S ls, ctx.action = none → e.Shape A.env.program.consts rules ctx s c →
    s.Reads ctx.sp S ls → Computes A c S (e.walk A.walkEnv A.fuel wrule ls)

/-- A class without parts has no case to ignore. -/
theorem CharClass.accepts_empty (k : CharClass) :
    CharClass.accepts { k with ignoreCase := k.ignoreCase && !k.parts.isEmpty } = k.accepts := by
  funext c
  obtain ⟨parts, inverted, ignoreCase⟩ := k
  cases parts with
  | nil =>
    have hn : ∀ i, contains ⟨[], inverted, i⟩ = fun _ => false := fun i => rfl
    have hf : ∀ cs : List Char, (cs.any fun _ => false) = false := by
      intro cs
      simp [List.any_eq_false]
    simp only [accepts, hn, hf]
  | cons d parts => simp

theorem Computes.next {operand : Code} {d : Option Expr} {w : Walk σ Value}
    (hes : ∀ e ∈ d, e.Sound A rules wrule) (hd : A.Has failed .failed) (ho : operand.Whole)
    (hw : ∀ S, Computes A operand S w)
    (hc : NextShape A.env.program.consts rules failed operand d ctx c) (ha : ctx.action = none) :
    Computes A c S (walkNext A.walkEnv A.fuel wrule w d) := by
  cases hc with
  | none =>
    rw [walkNext]
    exact hw S
  | some h1 hb hn =>
    rw [walkNext]
    have hdelim := fun S => hes _ rfl ctx [] _ S [] ha h1 .nil
    exact .delimited ho hw h1.whole hdelim hd hb hn

section

variable (hK : A.env.program.consts.length ≤ UInt32.size)

include hK

theorem ChoiceShape.computes (hes : ∀ e ∈ es, e.Sound A rules wrule)
    (hc : ChoiceShape A.env.program.consts rules es ctx c) :
    Computes A c S (walkChoice A.walkEnv A.fuel wrule es) := by
  induction es generalizing c with
  | nil =>
    cases hc with
    | nil hd =>
      rw [walkChoice]
      exact .moves ((hd.has hK).push rfl) (.nil rfl)
  | cons e es ih =>
    have he := fun c S hc => hes e List.mem_cons_self (ctx.push 0) [] c S [] rfl hc .nil
    rw [walkChoice]
    cases hc with
    | last h1 =>
      have hlast : (fun v : Value => if v.isFailed then walkChoice A.walkEnv A.fuel wrule []
          else pure v) = pure := by
        funext v
        cases hv : v.isFailed with
        | true =>
          rw [Value.eq_failed hv, walkChoice]
          rfl
        | false => rfl
      rw [hlast, bind_pure]
      exact he c S h1
    | cons h1 ho hr =>
      have hothers := ih (fun d hd => hes d (List.mem_cons_of_mem _ hd)) ho
      refine .append h1.whole (he _ S h1) ?_
      rintro S' v rfl
      refine .ifFailed hr (fun _ => ?_) (fun _ => .nil rfl)
      exact .moves Instr.moves_pop hothers

theorem ElementsShape.computes (vs : List Value) (hes : ∀ e ∈ es, e.Sound A rules wrule)
    (hd : A.Has failed .failed)
    (hc : ElementsShape A.env.program.consts rules failed es vs.length ctx s c)
    (hs : s.Reads ctx.sp (vs.reverse ++ .pos p :: S) ls) :
    Emulates A c (vs.reverse ++ .pos p :: S)
      (walkElements A.walkEnv A.fuel wrule es ls >>= settle A.walkEnv p ctx.action vs)
      fun S' v => S' = v :: S := by
  induction es generalizing vs ctx s ls c with
  | nil =>
    cases hc with
    | nil hc =>
      rw [walkElements, pure_bind, settle, List.append_nil]
      exact hc.computes hK hs
  | cons e es ih =>
    cases hc with
    | @cons _ _ _ _ _ _ _ _ drop _ h1 ho hdrop hr =>
      rw [walkElements_settle]
      have hs₀ : s.Reads (ctx.push 0).sp (vs.reverse ++ .pos p :: S) ls := by
        simpa using hs
      have he := hes e List.mem_cons_self (ctx.push 0) s _ _ ls rfl h1 hs₀
      refine .append h1.whole he ?_
      rintro S' v rfl
      have hrev : (vs ++ [v]).reverse ++ .pos p :: S = v :: (vs.reverse ++ .pos p :: S) := by simp
      refine .ifMatched hr (fun _ => ?_) (fun _ => ?_)
      · have hn : vs.length + 1 = (vs ++ [v]).length := by simp
        rw [hn] at ho
        have hs' := hs.bind v e
        rw [← hrev] at hs' ⊢
        have hrest := ih (vs ++ [v]) (fun d hd => hes d (List.mem_cons_of_mem _ hd)) ho hs'
        exact hrest
      · have hpop : DropCode (v :: vs.reverse).length drop := by
          simpa using hdrop
        refine .before hdrop.whole (hpop.computes (S := .pos p :: S)) ?_
        exact .popPos (.moves (hd.push rfl) (.nil rfl))

/-- A sequence, with the action that it has to call if there is one. -/
theorem Computes.sequence {body : Code} (hes : ∀ e ∈ es, e.Sound A rules wrule)
    (hd : A.Has failed .failed)
    (hb : ElementsShape A.env.program.consts rules failed es 0 (ctx.step 1) s body)
    (hs : s.Reads ctx.sp S ls) :
    Computes A (Code.seq [.pushPos] ++ body) S (do
      let p ← place
      walkElements A.walkEnv A.fuel wrule es ls >>= settle A.walkEnv p ctx.action []) := by
  refine .pushPos fun p => ?_
  have helements := ElementsShape.computes hK [] hes hd hb (hs.push (.pos p))
  exact helements

/-- Every expression is sound, if its parts are, and theirs. -/
theorem Expr.sound_of_parts
    (hrule : ∀ name i, rules name = some i →
      Follows A.env.host (A.rule (UInt32.ofNat i).toNat) (wrule name) Eq)
    (hp : ∀ d ∈ e.children, d.Sound A rules wrule)
    (hpp : ∀ d ∈ e.children, ∀ d' ∈ d.children, d'.Sound A rules wrule) :
    e.Sound A rules wrule := by
  intro ctx s c S ls ha hc hs
  cases hc with
  | named hx he hr =>
    rw [Expr.walk]
    have hinner := hp _ List.mem_cons_self ctx s _ S ls ha he hs
    exact .named he.whole hinner (hx.has hK) hr
  | choice hc =>
    rw [Expr.walk]
    exact hc.computes hK hp
  | @actionOfElements e code ctx s c hl he =>
    obtain ⟨d, es, rfl⟩ := Expr.eq_sequence hl
    cases he with
    | sequence hd hb =>
      rw [Expr.walk_actionOfElements]
      exact .sequence hK (hpp _ List.mem_cons_self) (hd.has hK) hb .nil
  | @action e code ctx s f inner call answer hl he hf hc hb =>
    have hinner := fun S => hp _ List.mem_cons_self _ [] _ S [] rfl he .nil
    rw [Expr.walk_action hl]
    exact .action he.whole hinner (hf.has hK) hc hb
  | @sequence es ctx s failed body hd hb =>
    have hseq := Computes.sequence hK hp (hd.has hK) hb hs
    rw [ha] at hseq
    rw [Expr.walk_sequence]
    exact hseq
  | labeled he =>
    rw [Expr.walk]
    exact hp _ List.mem_cons_self _ [] _ S [] rfl he .nil
  | text he hc =>
    rw [Expr.walk]
    have hinner := fun S => hp _ List.mem_cons_self _ [] _ S [] rfl he .nil
    exact .text he.whole hinner hc
  | followedBy hu hd he hb =>
    rw [Expr.walk]
    have hinner := fun S => hp _ List.mem_cons_self _ [] _ S [] rfl he .nil
    exact .followedBy he.whole hinner (hu.has hK) (hd.has hK) hb
  | notFollowedBy hu hd he hb =>
    rw [Expr.walk]
    have hinner := fun S => hp _ List.mem_cons_self _ [] _ S [] rfl he .nil
    exact .notFollowedBy he.whole hinner (hu.has hK) (hd.has hK) hb
  | guard hc =>
    rw [Expr.walk]
    exact hc.computes hK hs
  | guardNot hc =>
    rw [Expr.walk]
    exact hc.computes hK hs
  | optional hn he ho =>
    rw [Expr.walk]
    have hinner := hp _ List.mem_cons_self _ [] _ S [] rfl he .nil
    exact .optional he.whole hinner (hn.has hK) ho
  | zeroOrMore hy he hm =>
    rw [Expr.walk]
    have hinner := fun S => hp _ List.mem_cons_self _ [] _ S [] rfl he .nil
    exact .zeroOrMore he.whole hinner (hy.has hK) hm
  | oneOrMore hy hd he hm hr =>
    rw [Expr.walk]
    have hinner := fun S => hp _ List.mem_cons_self _ [] _ S [] rfl he .nil
    exact .oneOrMore he.whole hinner (hy.has hK) (hd.has hK) hm hr
  | bounded hy hd hl hg he hn hm hr ho =>
    rw [Expr.walk]
    have hinner := fun S => hp _ List.mem_cons_self _ [] _ S [] rfl he .nil
    have hdelim := fun d hd => hp d (List.mem_cons_of_mem _ (Option.mem_toList.mpr hd))
    have hnext := fun S => Computes.next (S := S) hdelim (hd.has hK) he.whole hinner hn rfl
    exact .bounded he.whole hinner hnext (hy.has hK) (hd.has hK) (hl.has hK) (hg.has hK) hm hr ho
  | rule hi =>
    rw [Expr.walk, Code.seq_cons, Code.seq_nil, List.append_nil]
    exact .rule (hrule _ _ hi)
  | literal hc =>
    rw [Expr.walk]
    exact hc.computes hK
  | @charClass k text ctx s members expected c hm hx hc =>
    rw [Expr.walk]
    refine .one hK (fun p => ?_) hx hc
    have hclass : A.env.program.charClass members =
        .ok { k with ignoreCase := k.ignoreCase && !k.parts.isEmpty } := by
      rw [Program.charClass, hm.has hK]
    rw [Test.holds, hclass, ← CharClass.accepts_empty k]
    rfl
  | any hx hc =>
    rw [Expr.walk]
    refine .one hK (fun p => ?_) hx hc
    rw [Test.holds]
    by_cases hp : p < A.env.input.size <;> simp [hp]

/-- The code of an expression emulates its walk, if each rule of the machine follows that rule. -/
theorem Expr.sound (hrule : ∀ name i, rules name = some i →
      Follows A.env.host (A.rule (UInt32.ofNat i).toNat) (wrule name) Eq) (e : Expr) :
    e.Sound A rules wrule := by
  induction e using Expr.inner_induction with
  | inner e hp hpp => exact e.sound_of_parts hK hrule hp hpp

end

end PegMachine
