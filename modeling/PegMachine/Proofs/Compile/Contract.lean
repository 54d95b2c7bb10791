import PegMachine.Proofs.Code.Balance
import PegMachine.Proofs.Compile.Shape
import PegMachine.Proofs.Labels

/-! The stack contract: run on any stack, the code of an expression puts one value on it and leaves
the values below as they are. -/
namespace PegMachine

variable {σ : Type} {ok : ℕ → ℕ → Prop} {M h n : ℕ} {K : List Constant}
  {rules : String → Option ℕ} {ctx : Context} {s : Scope} {sp : ℤ} {e : Expr} {es : List Expr}
  {failed : UInt32} {c : Code}

attribute [simp] Context.push Context.withAction

namespace Scope

theorem offset_eq_ok {b : String × ℤ} {w : UInt32} (ho : offset sp b = .ok w) :
    w.toNat = (sp - b.2).toNat := by
  unfold offset at ho
  split at ho
  · obtain rfl := Except.ok.inj ho
    exact UInt32.toNat_ofNat_of_lt' (by omega)
  · cases ho

theorem offsets_eq_ok {slots : Code} (ho : offsets sp s = .ok slots) :
    slots.map UInt32.toNat = s.map fun b => (sp - b.2).toNat := by
  induction s generalizing slots with
  | nil =>
    obtain rfl := Except.ok.inj ho
    rfl
  | cons b bs ih =>
    obtain ⟨w, hw, ho⟩ := except_bind_eq_ok.mp ho
    obtain ⟨ws, hws, ho⟩ := except_bind_eq_ok.mp ho
    obtain rfl := Except.ok.inj ho
    rw [List.map_cons, List.map_cons, offset_eq_ok hw, ih hws]

/-- Wherever the labels are read on top of height `h`, their slots are `ok`. -/
def Fits (ok : ℕ → ℕ → Prop) (sp : ℤ) (h : ℕ) (s : Scope) : Prop :=
  ∀ b ∈ s, ∀ d : ℕ, ok (h + d) (sp + d - b.2).toNat

theorem Fits.nil : Fits ok sp h [] := by
  intro b hb
  cases hb

theorem Fits.step (hs : Fits ok sp h s) (m : ℕ) : Fits ok (sp + m) (h + m) s := by
  intro b hb d
  have := hs b hb (m + d)
  rwa [← Nat.add_assoc, Nat.cast_add, ← Int.add_assoc] at this

theorem Fits.bind (hok : ∀ h k, k < h → ok h k) (hs : Fits ok sp h s) (e : Expr) :
    Fits ok (sp + 1) (h + 1) (e.bind (sp + 1) s) := by
  refine e.forall_bind (hs.step 1) fun l d => hok _ _ ?_
  dsimp only
  omega

end Scope

theorem Balanced.slots {f : UInt32} {pops : ℕ} (hc : Code.call f pops s sp = .ok c)
    (hM : pops ≤ M) (ht : pops ≤ h) (hs : s.Fits ok sp h) : Balanced ok M c h (h - pops + 1) := by
  obtain ⟨slots, n, k, ho, rfl, hk, rfl⟩ := Code.call_words hc
  have hw : ∀ x ∈ slots, ok h x.toNat := by
    intro x hx
    have hm := List.mem_map_of_mem (f := UInt32.toNat) hx
    rw [Scope.offsets_eq_ok ho] at hm
    obtain ⟨b, hb, hw⟩ := List.mem_map.mp hm
    have := hs b hb 0
    rw [← hw]
    simpa using this
  have := call (f := f) hk hM ht hw (.nil _)
  rwa [List.append_nil] at this

theorem DropCode.balanced (hc : DropCode n c) (hM : n ≤ M) :
    Balanced ok M c (h + n) h := by
  cases hc with
  | one => exact .seq (by simp; omega)
  | many hk => exact .seq (by simp [hk]; omega)

theorem LiteralCode.balanced {value : String} {ignoreCase : Bool}
    (hc : LiteralCode K value ignoreCase c) : Balanced ok M c h (h + 1) := by
  cases hc with
  | empty => exact .seq (by simp)
  | folded _ _ _ _ hc | exact _ _ _ hc =>
    refine .test hc (by simp) ?_ ?_
    · exact .seq (by simp)
    · exact .seq (by simp)

theorem GuardCode.balanced {negated : Bool} {code : String} (hc : GuardCode K negated code ctx s c)
    (hM : 2 ≤ M) (hs : s.Fits ok ctx.sp h) : Balanced ok M c h (h + 1) := by
  obtain ⟨_, _, _, hc, ha⟩ := hc
  refine .append (.append (j := h) (.seq ?_) (.slots hc (by omega) (by omega) hs))
    (.test ha (by simp) (.seq ?_) (.seq ?_))
  · simp
  · simp
    omega
  · simp
    omega

theorem CollectCode.balanced {action : Option String} (hc : CollectCode K n sp s action c)
    (hM : n + 2 ≤ M) (hs : s.Fits ok sp (h + 1 + n)) : Balanced ok M c (h + 1 + n) (h + 1) := by
  cases hc with
  | array hn =>
    refine .seq ?_
    simp [hn]
    omega
  | action hn _ hc =>
    have hcall := Balanced.slots hc (by omega : n ≤ M) (by omega) hs
    refine .append (.append (.seq ?_) hcall) (.seq ?_)
    · simp [hn]
      omega
    · simp
      omega

/-- The code of `e` puts one value on the stack. -/
def Expr.Pushes (ok : ℕ → ℕ → Prop) (M : ℕ) (K : List Constant) (rules : String → Option ℕ)
    (e : Expr) : Prop :=
  ∀ ctx s c h, e.Shape K rules ctx s c → s.Fits ok ctx.sp h → Balanced ok M c h (h + 1)

theorem ChoiceShape.balanced (he : ∀ e ∈ es, e.Pushes ok M K rules) (hM : 2 ≤ M)
    (hc : ChoiceShape K rules es ctx c) : Balanced ok M c h (h + 1) := by
  induction es generalizing c with
  | nil =>
    cases hc with
    | nil hd => exact .seq (by simp)
  | cons e es ih =>
    have hfirst := he e List.mem_cons_self
    cases hc with
    | last h1 => exact hfirst _ _ _ _ h1 .nil
    | cons h1 ho hr =>
      have hothers := ih (fun d hd => he d (List.mem_cons_of_mem _ hd)) ho
      refine .append (hfirst _ _ _ h h1 .nil) (.test hr (by simp) ?_ ?_)
      · refine .append (.seq ?_) hothers
        simp
        omega
      · exact .nil _

theorem ElementsShape.balanced (hok : ∀ h k, k < h → ok h k)
    (he : ∀ e ∈ es, e.Pushes ok M K rules) (hM : n + es.length + 2 ≤ M)
    (hs : s.Fits ok ctx.sp (h + 1 + n)) (hc : ElementsShape K rules failed es n ctx s c) :
    Balanced ok M c (h + 1 + n) (h + 1) := by
  induction es generalizing n ctx s c with
  | nil =>
    cases hc with
    | nil hc => exact hc.balanced hM hs
  | cons e es ih =>
    cases hc with
    | cons h1 ho hd hr =>
      rw [List.length_cons] at hM
      have hfirst := he e List.mem_cons_self _ _ _ (h + 1 + n) h1 (by simpa using hs)
      have hothers := ih (fun d hd => he d (List.mem_cons_of_mem _ hd)) (by omega)
        (hs.bind hok e) ho
      refine .append hfirst (.test hr (by simp) hothers ?_)
      refine .append (j := h + 1) (hd.balanced (by omega)) (.seq ?_)
      simp
      omega

theorem NextShape.balanced {operand : Code} {d : Option Expr}
    (he : ∀ e ∈ d, e.Pushes ok M K rules) (hM : 2 ≤ M)
    (hop : ∀ h, Balanced ok M operand h (h + 1)) (hc : NextShape K rules failed operand d ctx c) :
    Balanced ok M c h (h + 1) := by
  cases hc with
  | none => exact hop h
  | some hd hb hn =>
    have hdelim := he _ rfl _ _ _ (h + 1) hd .nil
    have hback : Balanced ok M _ (h + 2) (h + 1) :=
      .test hb (by simp)
        (.seq (by simp; omega))
        (.seq (by simp; omega))
    refine .append (.append (j := h + 1) (.seq ?_) hdelim)
      (.test hn (by simp) ?_ (.seq ?_))
    · simp
    · refine .append (.append (j := h + 1) (.seq ?_) (hop _)) hback
      simp
      omega
    · simp
      omega

/-- A body with the code of too many elements would have a length that no word holds. -/
theorem ElementsShape.length_lt (hc : ElementsShape K rules failed es n ctx s c) :
    7 * es.length ≤ c.length ∧ es.length < 2 ^ 30 := by
  induction es generalizing n ctx s c with
  | nil => simp
  | cons e es ih =>
    cases hc with
    | @cons _ _ _ _ _ _ first others drop rest _ ho hd hr =>
      obtain ⟨hlen, -⟩ := ih ho
      obtain ⟨m, k, hm, -, rfl⟩ := Code.branch_words hr
      have hword := m.toNat_lt
      have hdrop : 1 ≤ drop.length := by
        cases hd with
        | one => exact le_rfl
        | many => exact one_le_two
      have hback : (Code.seq [.popPos, .push failed]).length = 3 := rfl
      simp only [List.length_append, List.length_cons, Test.words, hback]
      omega

/-- Every expression puts one value on the stack, if its parts do. Only the elements of a sequence are
taken from the stack all at once. -/
theorem Expr.pushes_of_parts (hok : ∀ h k, k < h → ok h k) (hM : 2 ^ 30 + 2 ≤ M)
    (hp : ∀ d ∈ e.children, d.Pushes ok M K rules) : e.Pushes ok M K rules := by
  intro ctx s c h hc hs
  cases hc with
  | named _ he hr =>
    have hinner := hp _ List.mem_cons_self _ _ _ h he hs
    refine .append (.append (.append (.seq ?_) hinner) (.seq (h := h + 1) (k := h + 1) ?_))
      (.test hr (by simp) (.seq ?_) (.nil _))
    · simp
    · simp
    · simp
      omega
  | choice hc => exact hc.balanced hp (by omega)
  | actionOfElements _ he => exact hp _ List.mem_cons_self _ _ _ _ he .nil
  | @action e code _ _ _ inner call answer _ he _ hc ha =>
    have hinner := hp _ List.mem_cons_self _ _ _ (h + 1) he .nil
    have hnil : Scope.Fits ok (ctx.sp + 1) (h + 1) [] := .nil
    have hfit := hnil.bind hok e
    rw [Int.add_assoc] at hfit
    have hcall := Balanced.slots hc (by omega : 1 ≤ M) (by omega) hfit
    refine .append (.append (.append (j := h + 1) (.seq ?_) hinner)
      (.test ha (by simp) (.append (.seq ?_) hcall) (.nil _))) (.seq ?_)
    · simp
    · simp
      omega
    · simp
      omega
  | @sequence es _ _ _ _ _ hb =>
    have hes : ∀ d ∈ es, d.Pushes ok M K rules := hp
    have hshort := hb.length_lt.2
    have hbody := hb.balanced (h := h) hok hes (by omega) (hs.step 1)
    exact .append (.seq (by simp)) hbody
  | labeled he => exact hp _ List.mem_cons_self _ _ _ _ he .nil
  | text he hc =>
    have hinner := hp _ List.mem_cons_self _ _ _ (h + 1) he .nil
    refine .append (.append (.append (j := h + 1) (.seq ?_) hinner)
      (.test hc (by simp) (.seq ?_) (.nil _))) (.seq ?_)
    · simp
    · simp
      omega
    · simp
      omega
  | followedBy _ _ he ha | notFollowedBy _ _ he ha =>
    have hinner := hp _ List.mem_cons_self _ _ _ (h + 1) he .nil
    refine .append (.append (.append (j := h + 1) (.seq ?_) hinner)
      (.seq (h := h + 2) (k := h + 2) ?_)) (.test ha (by simp) (.seq ?_) (.seq ?_))
    · simp
    · simp
    · simp
      omega
    · simp
      omega
  | guard hc | guardNot hc => exact hc.balanced (by omega) hs
  | optional _ he ho =>
    have hinner := hp _ List.mem_cons_self _ _ _ h he .nil
    refine .append hinner (.test ho (by simp) (.seq ?_) (.nil _))
    simp
    omega
  | zeroOrMore _ he hm =>
    have hinner := fun h => hp _ List.mem_cons_self _ _ _ h he .nil
    have hmore : Balanced ok M _ (h + 2) (h + 2) :=
      .rounds hm (by omega) (.append (j := h + 1) (.seq (by simp; omega)) (hinner _))
    refine .append (.append (.append (j := h + 1) (.seq ?_) (hinner _)) hmore) (.seq ?_)
    · simp
    · simp
      omega
  | oneOrMore _ _ he hm hr =>
    have hinner := fun h => hp _ List.mem_cons_self _ _ _ h he .nil
    have hmore : Balanced ok M _ (h + 2) (h + 2) :=
      .rounds hm (by omega) (.append (j := h + 1) (.seq (by simp; omega)) (hinner _))
    refine .append (.append (j := h + 1) (.seq ?_) (hinner _))
      (.test hr (by simp) (.append hmore (.seq ?_)) (.seq ?_))
    · simp
    · simp
      omega
    · simp
      omega
  | bounded _ _ _ _ he hn hm hr ho =>
    have hfirst := fun h => hp _ List.mem_cons_self _ _ _ h he .nil
    have hnext := hn.balanced (h := h + 1)
      (fun d hd => hp d (List.mem_cons_of_mem _ (by simpa using hd))) (by omega) hfirst
    have hmore : Balanced ok M _ (h + 2) (h + 2) := .test hm (by simp) (.seq (by simp)) hnext
    have hrounds : Balanced ok M _ (h + 2) (h + 2) :=
      .rounds hr (by omega) (.append (j := h + 2) (.seq (by simp; omega)) hmore)
    refine .append (.append (.append (.append (j := h + 1) (.seq ?_) (hfirst _)) hrounds)
      (.seq (k := h + 2) ?_)) (.test ho (by simp) (.seq ?_) (.nil _))
    · simp
    · simp
      omega
    · simp
      omega
  | rule => exact .seq (by simp)
  | literal hc => exact hc.balanced
  | charClass _ _ hc | any _ hc => exact .test hc (by simp) (.seq (by simp)) (.seq (by simp))

/-- Every expression puts one value on the stack, and takes no more than a word can count without being
read as a negative number. -/
theorem Expr.pushes (hok : ∀ h k, k < h → ok h k) (e : Expr) :
    e.Pushes ok (2 ^ 31 - 1) K rules := by
  induction e using Expr.parts_induction with
  | part e ih => exact e.pushes_of_parts hok (by omega) ih

/-- Code of an expression leads to one value more, from any height. -/
theorem Expr.Shape.balanced (hc : e.Shape K rules ctx s c) (h : ℕ) :
    Balanced (fun _ _ => True) (2 ^ 31 - 1) c h (h + 1) :=
  e.pushes (fun _ _ _ => trivial) ctx s c h hc fun _ _ _ => trivial

/-- Code of an expression that runs to its end, in whatever program and at whatever place of it, has
put one value on the stack and changed none of the others. -/
theorem Expr.stack_contract {p q : Pool} {env : Env σ} {fuel : ℕ} {rule : ℕ → Run σ Value}
    {name : String} {ip : ℕ} {S S' : Stack} {t t' : State σ}
    (hc : e.compile rules ctx s p = .ok (c, q))
    (hr : (Block.read ip c).run env fuel rule name S t = .ok S' t') : ∃ v, S' = v :: S := by
  have hshape := (e.yields_shape ctx s p c q hc).2 List.prefix_rfl
  let ok : ℕ → ℕ → Prop := fun _ _ => True
  have hpush : e.Pushes ok (2 ^ 31 - 1) q.consts rules := e.pushes fun _ _ _ => trivial
  have hbal := hpush ctx s c 0 hshape fun _ _ _ => trivial
  let A : Activation σ := ⟨env, fuel, rule, name⟩
  obtain ⟨V, hV, rfl⟩ := hbal.frame (A := A) (U := []) (T := S) rfl hr
  obtain ⟨v, rfl⟩ := List.length_eq_one_iff.mp hV
  exact ⟨v, rfl⟩

/-- The letters of a word are gathered above a saved place. -/
theorem Expr.stack_contract_letters :
    ∃ c q S' t',
      (Expr.zeroOrMore .any).compile (fun _ => none) ⟨1, none⟩ [("x", 0)] {} = .ok (c, q) ∧
      (Block.read 0 c).run (⟨⟨[], q.consts⟩, .none, {}, .ofString "ab"⟩ : Env Unit) 5
        (fun _ => throw .fuel) "letters" [.null, .pos 3] (.start ()) = .ok S' t' ∧
      ∃ v, S' = v :: [.null, .pos 3] := by
  have hc : (Expr.zeroOrMore .any).compile (fun _ => none) ⟨1, none⟩ [("x", 0)] {} =
      .ok ([0, 0, 15, 2, 2, 19, 1, 21, 1, 14, 8, 6, 15, 2, 2, 19, 1, 21, 1, 2],
        ⟨[.emptyArray, .expectation .anyChar]⟩) := rfl
  have hb : Block.read 0 [0, 0, 15, 2, 2, 19, 1, 21, 1, 14, 8, 6, 15, 2, 2, 19, 1, 21, 1, 2] =
      .instr 0 (.push 0) (.branch 2 .any 2 2 (.instr 5 (.acceptN 1) .done)
        (.instr 7 (.fail 1) .done) (.loop 9 8 (.instr 11 .append (.branch 12 .any 2 2
          (.instr 15 (.acceptN 1) .done) (.instr 17 (.fail 1) .done) .done))
          (.instr 19 .pop .done))) := by
    decide +kernel
  have hr : (Block.read 0 [0, 0, 15, 2, 2, 19, 1, 21, 1, 14, 8, 6, 15, 2, 2, 19, 1, 21, 1, 2]).run
      (⟨⟨[], [.emptyArray, .expectation .anyChar]⟩, .none, {}, .ofString "ab"⟩ : Env Unit) 5
      (fun _ => throw .fuel) "letters" [.null, .pos 3] (.start ()) =
      .ok [.array [.string "a", .string "b"], .null, .pos 3]
        ⟨⟨2, 0, ⟨2, [.anyChar]⟩, ()⟩, 0, 11⟩ := by
    rw [hb]
    rfl
  exact ⟨_, _, _, _, hc, hr, Expr.stack_contract hc hr⟩

end PegMachine
