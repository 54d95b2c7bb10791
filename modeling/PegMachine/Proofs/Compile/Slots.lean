import PegMachine.Proofs.Code.Slots
import PegMachine.Proofs.Compile.Contract

/-! The code of expressions is typed: it puts a result on whatever slots it starts from. What is asked
of the calls in it is left open. -/
namespace PegMachine

variable {K : List Constant} {rules : String → Option ℕ} {ctx : Context} {s : Scope} {sp : ℤ}
  {e : Expr} {es : List Expr} {failed : UInt32} {c : Code} {n : ℕ} {Γ Δ : List Slot}

/-- What is asked of calls, and what of the labels in scope, so that the calls meet it whatever the
labels are bound to. -/
structure Demand where
  calls : Calling
  scope : ℤ → List Slot → Scope → Prop
  none (sp : ℤ) (Γ : List Slot) : scope sp Γ []
  push {sp : ℤ} {Γ : List Slot} {s : Scope} (h : scope sp Γ s) (u : Slot) : scope (sp + 1) (u :: Γ) s
  bind {sp : ℤ} {Γ : List Slot} {s : Scope} (h : scope sp Γ s) (e : Expr) :
    scope (sp + 1) (.value :: Γ) (e.bind (sp + 1) s)
  call {sp : ℤ} {Γ : List Slot} {s : Scope} {slots : Code} (h : scope sp Γ s)
    (ho : s.offsets sp = .ok slots) (code : String) : calls ⟨s.names, code⟩ Γ slots

/-- Nothing is asked. -/
def Demand.nothing : Demand where
  calls _ _ _ := True
  scope _ _ _ := True
  none _ _ := trivial
  push _ _ := trivial
  bind _ _ := trivial
  call _ _ _ := trivial

variable {D : Demand}

/-- A call behind the instruction that says where it reports from. -/
theorem Typed.called {i : Instr} {f : UInt32} {call : Code} {code : String}
    (hi : i.Reports (Δ ++ Γ)) (hf : Numbers K f (.function ⟨s.names, code⟩))
    (hc : Code.call f n s sp = .ok call) (hn : Δ.length = n) (hs : D.scope sp (Δ ++ Γ) s) :
    Typed K D.calls (Code.seq [i] ++ call) (Δ ++ Γ) (.value :: Γ) := by
  obtain ⟨slots, m, k, ho, hm, hk, rfl⟩ := Code.call_words hc
  have h := Typed.call hi hf hk (hm.trans hn.symm) (D.call hs ho code) (.nil _)
  rw [List.append_nil] at h
  rwa [show Code.seq [i] = i.words from List.append_nil _]

theorem DropCode.typed {ok : Calling} (hc : DropCode Δ.length c) : Typed K ok c (Δ ++ Γ) Γ := by
  generalize hn : Δ.length = n at hc
  cases hc with
  | one =>
    obtain ⟨u, rfl⟩ := List.length_eq_one_iff.mp hn
    exact .one .pop
  | many hk => exact .seq ⟨_, .popN (hk.trans hn.symm), rfl⟩

theorem LiteralCode.typed {ok : Calling} {value : String} {ignoreCase : Bool}
    (hc : LiteralCode K value ignoreCase c) : Typed K ok c Γ (.result :: Γ) := by
  cases hc with
  | empty _ ht => exact .result (.one (.push ht rfl))
  | folded _ _ _ _ hc =>
    exact .test hc .folded (.result (.one .acceptN)) (.one .fail)
  | exact _ _ _ hc =>
    have h : Typed K ok _ Γ _ := .take hc (.one .fail) (.nil _)
    rwa [List.append_nil] at h

theorem GuardCode.typed {negated : Bool} {code : String} (hc : GuardCode K negated code ctx s c)
    (hs : D.scope ctx.sp Γ s) : Typed K D.calls c Γ (.result :: Γ) := by
  obtain ⟨hf, hu, hd, hc, ha⟩ := hc
  have hcall : Typed K D.calls _ Γ _ := .called (Δ := []) .here hf hc rfl hs
  have hyes {k : UInt32} (hk : Numbers K k .undefined) :
      Typed K D.calls (Code.seq [.pop, .push k]) (.value :: Γ) (.result :: Γ) :=
    .result (.seq ⟨_, .pop, _, .push hk rfl, rfl⟩)
  have hno {k : UInt32} (hk : Numbers K k .failed) :
      Typed K D.calls (Code.seq [.pop, .push k]) (.value :: Γ) (.result :: Γ) :=
    .seq ⟨_, .pop, _, .push hk rfl, rfl⟩
  refine .append hcall ?_
  cases negated with
  | true => exact .test ha .isTrue (hno hd) (hyes hu)
  | false => exact .test ha .isTrue (hyes hu) (hno hd)

theorem CollectCode.typed {action : Option String} (hc : CollectCode K n sp s action c)
    (hs : D.scope sp (List.replicate n .value ++ .place :: Γ) s) :
    Typed K D.calls c (List.replicate n .value ++ .place :: Γ) (.result :: Γ) := by
  cases hc with
  | array hn => exact .result (.seq ⟨_, .wrap hn, _, .nip, rfl⟩)
  | action hn hf hc =>
    subst hn
    exact .result (.append (.called (.saved (by simp)) hf hc (by simp) hs) (.one .nip))

/-- The code of `e` puts a result on the stack. -/
def Expr.Results (D : Demand) (K : List Constant) (rules : String → Option ℕ) (e : Expr) : Prop :=
  ∀ ctx s c Γ, e.Shape K rules ctx s c → D.scope ctx.sp Γ s → Typed K D.calls c Γ (.result :: Γ)

theorem ChoiceShape.typed (he : ∀ e ∈ es, e.Results D K rules) (hc : ChoiceShape K rules es ctx c) :
    Typed K D.calls c Γ (.result :: Γ) := by
  induction es generalizing c with
  | nil =>
    cases hc with
    | nil hd => exact .one (.push hd rfl)
  | cons e es ih =>
    have hfirst := he e List.mem_cons_self
    cases hc with
    | last h1 => exact hfirst _ _ _ _ h1 (D.none _ _)
    | cons h1 ho hr =>
      have hothers := ih (fun d hd => he d (List.mem_cons_of_mem _ hd)) ho
      have hrest : Typed K D.calls _ (.result :: Γ) _ := .append (.one .pop) hothers
      exact .append (hfirst _ _ _ Γ h1 (D.none _ _)) (.test hr .isFailed hrest (.widen (.nil _)))

theorem ElementsShape.typed (he : ∀ e ∈ es, e.Results D K rules) (hd : Numbers K failed .failed)
    (hs : D.scope ctx.sp (List.replicate n .value ++ .place :: Γ) s)
    (hc : ElementsShape K rules failed es n ctx s c) :
    Typed K D.calls c (List.replicate n .value ++ .place :: Γ) (.result :: Γ) := by
  induction es generalizing n ctx s c with
  | nil =>
    cases hc with
    | nil hc => exact hc.typed hs
  | cons e es ih =>
    cases hc with
    | @cons _ _ _ _ _ _ first others drop rest h1 ho hdrop hr =>
      have hfirst := he e List.mem_cons_self _ _ _ (List.replicate n .value ++ .place :: Γ) h1
        (by simpa [Context.push] using hs)
      have hothers : Typed K D.calls others (.value :: (List.replicate n .value ++ .place :: Γ)) _ :=
        ih (fun d hd => he d (List.mem_cons_of_mem _ hd)) (D.bind hs e) ho
      have hback : Typed K D.calls (drop ++ Code.seq [.popPos, .push failed])
          (.result :: (List.replicate n .value ++ .place :: Γ)) (.result :: Γ) := by
        have hl : (Slot.result :: List.replicate n Slot.value).length = n + 1 := by simp
        rw [← hl] at hdrop
        exact .append hdrop.typed (.seq ⟨_, .popPos, _, .push hd rfl, rfl⟩)
      exact .append hfirst (.test hr .isMatched hothers hback)

theorem NextShape.typed {operand : Code} {d : Option Expr} (he : ∀ e ∈ d, e.Results D K rules)
    (hd : Numbers K failed .failed) (ho : ∀ Γ, Typed K D.calls operand Γ (.result :: Γ))
    (hc : NextShape K rules failed operand d ctx c) : Typed K D.calls c Γ (.result :: Γ) := by
  cases hc with
  | none => exact ho Γ
  | some h1 hb hn =>
    have hdelim := he _ rfl _ _ _ (.place :: Γ) h1 (D.none _ _)
    have hback : Typed K D.calls _ (.result :: .place :: Γ) (.result :: Γ) :=
      .test hb .isFailed (.seq ⟨_, .pop, _, .popPos, _, .push hd rfl, rfl⟩)
        (.result (.one .nip))
    have hagain : Typed K D.calls _ (.value :: .place :: Γ) _ :=
      .append (.append (.one .pop) (ho _)) hback
    exact .append (.append (.one .pushPos) hdelim)
      (.test hn .isMatched hagain (.one .nip))

/-- Every expression puts a result on the stack, if its parts do. -/
theorem Expr.results_of_parts (hp : ∀ d ∈ e.children, d.Results D K rules) :
    e.Results D K rules := by
  intro ctx s c Γ hc hs
  cases hc with
  | named _ he hr =>
    have hinner := hp _ List.mem_cons_self _ _ _ _ he hs
    exact .append hinner.silence (.test hr .isFailed (.seq ⟨_, .pop, _, .fail, rfl⟩)
      (.widen (.nil _)))
  | choice hc => exact hc.typed hp
  | actionOfElements _ he => exact hp _ List.mem_cons_self _ _ _ _ he (D.none _ _)
  | @action e _ _ _ _ _ _ _ _ he hf hc ha =>
    have hinner := hp _ List.mem_cons_self _ _ _ (.place :: Γ) he (D.none _ _)
    have hscope := D.bind (D.none (ctx.sp + 1) (.place :: Γ)) e
    rw [Int.add_assoc] at hscope
    have hcall : Typed K D.calls _ (.value :: .place :: Γ) (.value :: .place :: Γ) :=
      .called (Δ := [.value]) (.saved (k := 1) rfl) hf hc rfl hscope
    have hanswer := Typed.test ha .isMatched hcall.result (.nil _)
    exact .append (.append (.append (.one .pushPos) hinner) hanswer) (.one .nip)
  | sequence hd hb => exact .append (.one .pushPos) (hb.typed (n := 0) hp hd (D.push hs _))
  | labeled he => exact hp _ List.mem_cons_self _ _ _ _ he (D.none _ _)
  | text he hc =>
    have hinner := hp _ List.mem_cons_self _ _ _ (.place :: Γ) he (D.none _ _)
    have hcut : Typed K D.calls _ (.result :: .place :: Γ) _ :=
      .test hc .isMatched (.result (.one .text)) (.nil _)
    exact .append (.append (.append (.one .pushPos) hinner) hcut) (.one .nip)
  | followedBy hu hd he ha =>
    have hinner := hp _ List.mem_cons_self _ _ _ (.place :: Γ) he (D.none _ _)
    have hanswer : Typed K D.calls _ (.result :: .place :: Γ) _ := .test ha .isMatched
      (.result (.seq ⟨_, .pop, _, .popPos, _, .push hu rfl, rfl⟩))
      (.seq ⟨_, .pop, _, .pop, _, .push hd rfl, rfl⟩)
    exact .append hinner.look hanswer
  | notFollowedBy hu hd he ha =>
    have hinner := hp _ List.mem_cons_self _ _ _ (.place :: Γ) he (D.none _ _)
    have hanswer : Typed K D.calls _ (.result :: .place :: Γ) _ := .test ha .isFailed
      (.result (.seq ⟨_, .pop, _, .pop, _, .push hu rfl, rfl⟩))
      (.seq ⟨_, .pop, _, .popPos, _, .push hd rfl, rfl⟩)
    exact .append hinner.look hanswer
  | guard hc | guardNot hc => exact hc.typed hs
  | optional hn he ho =>
    have hinner := hp _ List.mem_cons_self _ _ _ Γ he (D.none _ _)
    exact .append hinner (.test ho .isFailed (.result (.seq ⟨_, .pop, _, .push hn rfl, rfl⟩))
      (.widen (.nil _)))
  | zeroOrMore hy he hm =>
    have hinner := fun Γ => hp _ List.mem_cons_self _ _ _ Γ he (D.none _ _)
    have hmore : Typed K D.calls _ (.result :: .value :: Γ) _ :=
      .rounds hm (.append (.one .append) (hinner _))
    have hall : Typed K D.calls _ Γ (.value :: Γ) :=
      .append (.append (.append (.one (.push hy rfl)) (hinner _)) hmore) (.one .pop)
    exact hall.result
  | oneOrMore hy hd he hm hr =>
    have hinner := fun Γ => hp _ List.mem_cons_self _ _ _ Γ he (D.none _ _)
    have hmore : Typed K D.calls _ (.result :: .value :: Γ) _ :=
      .rounds hm (.append (.one .append) (hinner _))
    have hdone : Typed K D.calls _ (.result :: .value :: Γ) (.value :: Γ) :=
      .append hmore (.one .pop)
    have hrest := Typed.test hr .isMatched hdone.result.widen
      (.seq ⟨_, .pop, _, .pop, _, .push hd rfl, rfl⟩)
    exact .append (.append (.one (.push hy rfl)) (hinner _)) hrest
  | bounded hy hd hl hg he hn hm hr ho =>
    have hfirst := fun Γ => hp _ List.mem_cons_self _ _ _ Γ he (D.none _ _)
    have hnext := hn.typed (Γ := .value :: Γ)
      (fun d hd => hp d (List.mem_cons_of_mem _ (by simpa using hd))) hd hfirst
    have hmore := Typed.test hm .isFull (.one (.push hd rfl)) hnext
    have hrounds : Typed K D.calls _ (.result :: .value :: Γ) _ :=
      .rounds hr (.append (.seq ⟨_, .append, _, .push hg rfl, rfl⟩) hmore)
    have henough : Typed K D.calls _ (.bound :: .value :: Γ) _ :=
      .test ho .isShort (.seq ⟨_, .pop, _, .push hd rfl, rfl⟩) (.widen (.nil _))
    exact .append (.append (.append (.append (.one (.push hy rfl)) (hfirst _)) hrounds)
      (.seq ⟨_, .pop, _, .push hl rfl, rfl⟩)) henough
  | rule => exact .one .rule
  | literal hc => exact hc.typed
  | charClass _ _ hc => exact .test hc .charClass (.result (.one .acceptN)) (.one .fail)
  | any _ hc => exact .test hc .any (.result (.one .acceptN)) (.one .fail)

theorem Expr.results (e : Expr) : e.Results D K rules := by
  induction e using Expr.parts_induction with
  | part e ih => exact e.results_of_parts ih

/-- The code of an expression is typed where the labels in scope are as they are asked to be. -/
theorem Expr.Shape.typed (hc : e.Shape K rules ctx s c) (hs : D.scope ctx.sp Γ s) :
    Typed K D.calls c Γ (.result :: Γ) :=
  e.results ctx s c Γ hc hs

/-- The labels in scope are all different, and each stands for a value on the stack, whose top is at
slot `sp`. -/
def Scope.Valued (sp : ℤ) (Γ : List Slot) (s : Scope) : Prop :=
  s.names.Nodup ∧ ∀ b ∈ s, b.2 ≤ sp ∧ Γ[(sp - b.2).toNat]? = some .value

/-- A call reads one value for each parameter, and the parameters are all different. -/
def ActionFn.ReadsValues (f : ActionFn) (Γ : List Slot) (slots : Code) : Prop :=
  f.params.Nodup ∧ slots.length = f.params.length ∧ ∀ x ∈ slots, Γ[x.toNat]? = some .value

namespace Scope.Valued

theorem none (sp : ℤ) (Γ : List Slot) : Scope.Valued sp Γ [] := by
  simp [Valued, Labels.names]

theorem below {b : String × ℤ} {u : Slot} (h : b.2 ≤ sp ∧ Γ[(sp - b.2).toNat]? = some .value) :
    b.2 ≤ sp + 1 ∧ (u :: Γ)[(sp + 1 - b.2).toNat]? = some .value := by
  have hstep : (sp + 1 - b.2).toNat = (sp - b.2).toNat + 1 := by omega
  rw [hstep, List.getElem?_cons_succ]
  exact ⟨by omega, h.2⟩

theorem push (h : s.Valued sp Γ) (u : Slot) : s.Valued (sp + 1) (u :: Γ) :=
  ⟨h.1, fun b hb => below (h.2 b hb)⟩

theorem bind (h : s.Valued sp Γ) (e : Expr) :
    Scope.Valued (sp + 1) (.value :: Γ) (e.bind (sp + 1) s) := by
  refine ⟨e.nodup_bind h.1, e.forall_bind (fun b hb => below (h.2 b hb)) fun l => ?_⟩
  simp

theorem call {slots : Code} (h : s.Valued sp Γ) (ho : s.offsets sp = .ok slots) (code : String) :
    ActionFn.ReadsValues ⟨s.names, code⟩ Γ slots := by
  have hmap := Scope.offsets_eq_ok ho
  have hlen := congrArg List.length hmap
  rw [List.length_map, List.length_map] at hlen
  refine ⟨h.1, by rw [hlen, Labels.names, List.length_map], fun x hx => ?_⟩
  have hmem := List.mem_map_of_mem (f := UInt32.toNat) hx
  rw [hmap] at hmem
  obtain ⟨b, hb, hw⟩ := List.mem_map.mp hmem
  rw [← hw]
  exact (h.2 b hb).2

end Scope.Valued

/-- Calls are to read values for their parameters. -/
def Demand.values : Demand where
  calls := ActionFn.ReadsValues
  scope sp Γ s := s.Valued sp Γ
  none := Scope.Valued.none
  push := Scope.Valued.push
  bind := Scope.Valued.bind
  call := Scope.Valued.call

end PegMachine
