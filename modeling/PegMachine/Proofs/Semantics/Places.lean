import PegMachine.Proofs.Machine.Cut
import PegMachine.Proofs.Machine.Furthest
import PegMachine.Proofs.Semantics.Agreement
import PegMachine.Proofs.Semantics.Binding
import PegMachine.Proofs.Semantics.Slots

/-! Places that functions see. The machine never leaves the input, code of an expression never ends
before the place where it starts, and what a call reports on is the text between two places: those
where the operand of an action starts and ends. -/
namespace PegMachine

variable {σ : Type} {g : Grammar} {p : Program} {H : Host σ} {verify : Bool} {input : String}
  {K : List Constant} {rules : String → Option ℕ} {e : Expr} {ctx : Context} {s : Scope} {c : Code}
  {S : Stack} {v : Value} {sp : ℤ}

open Run

namespace Activation

variable (A : Activation σ)

/-- An action on an operand that is no sequence of elements: where the operand matches, the host is
asked and reports from the place where the operand has started. -/
def act (e : Expr) (code : String) (inner : Code) (S : Stack) : Run σ Stack := do
  tick A.env.limits S
  let s ← get
  let v ← A.value inner (.pos s.pos :: S)
  tick A.env.limits (v :: .pos s.pos :: S)
  let v ←
    if v.isFailed then pure v
    else
      let bs : Bindings := [(e.label?, v)]
      A.call (fun _ => s.pos) ⟨bs.params, code⟩ bs.args (v :: .pos s.pos :: S)
  tick A.env.limits (v :: .pos s.pos :: S)
  pure (v :: S)

variable {A}

theorem exec_action {f : UInt32} {code : String} {inner call answer : Code}
    (he : e.Shape K rules ctx s inner)
    (hf : A.Has f (.function ⟨Labels.names (e.bind (sp + 2) []), code⟩))
    (hc : Code.call f 1 (e.bind (sp + 2) []) (sp + 2) = .ok call)
    (ha : Code.branch (Test.words .isMatched) (Code.seq [.reportSaved 1] ++ call) [] = .ok answer)
    (ip : ℕ) (S : Stack) :
    A.exec ip (Code.seq [.pushPos] ++ inner ++ answer ++ Code.seq [.nip]) S =
      A.act e code inner S := by
  have hask (v : Value) (p ip : ℕ) :
      A.exec ip (Instr.words (.reportSaved 1) ++ call) (v :: .pos p :: S) = (do
        let bs : Bindings := [(e.label?, v)]
        let v ← A.call (fun _ => p) ⟨bs.params, code⟩ bs.args (v :: .pos p :: S)
        pure (v :: .pos p :: S)) := by
    have hnil : Scope.Reads (sp + 1) (.pos p :: S) [] (Bindings.labels []) := .nil
    have hs := hnil.bind v e
    rw [Int.add_assoc, Expr.bind_labels, List.nil_append] at hs
    have hfun := hf.function hs
    rw [Bindings.names_labels] at hfun
    have hsaved t : (Instr.reportSaved 1).run A.env A.rule (v :: .pos p :: S) t =
        .ok (v :: .pos p :: S) { t with reported := p } := rfl
    obtain ⟨j, hx⟩ := exec_ask (fun _ => p) hsaved hc hfun hs (by simp) ip []
    rw [List.append_nil] at hx
    rw [hx, Bindings.values_labels]
    exact bind_congr fun v => exec_nil
  simp only [Code.seq_cons, Code.seq_nil, List.append_nil, List.append_assoc] at ha ⊢
  rw [exec_words, act, Instr.run, bind_assoc]
  refine bind_congr fun _ => bind_congr fun t => ?_
  rw [pure_bind, exec_append he.whole, exec_expr he, bind_assoc]
  refine bind_congr fun v => ?_
  rw [pure_bind, exec_append (Code.whole_branch ha)]
  obtain ⟨j, k, hx⟩ := exec_test (A := A) (S := v :: .pos t.pos :: S) (!v.isFailed) ha
    (fun _ => rfl) _
  rw [hx, bind_assoc]
  refine bind_congr fun _ => ?_
  have hnip (w : Value) (ip : ℕ) : A.exec ip Instr.nip.words (w :: .pos t.pos :: S) = (do
      tick A.env.limits (w :: .pos t.pos :: S)
      pure (w :: S)) := by
    have h := exec_moves (A := A) (Instr.moves_nip (v := w) (u := .pos t.pos) (S := S)) ip []
    rwa [List.append_nil, exec_nil] at h
  cases v.isFailed with
  | true => simp [exec_nil, hnip]
  | false => simp [hask, hnip]

theorem ask_eq (f : ActionFn) (args : List Value) (t : State σ) :
    A.ask f args t =
      match A.env.host f ⟨A.env.input, t.reported, t.pos⟩ args t.host with
      | (.ok v, h) => .ok v { t with host := h }
      | (.error e, h) => .error (.host e) { t with host := h } := by
  have hget (k : State σ → Run σ Value) : (get >>= k) t = k t t := rfl
  rw [ask, hget, Progress.call]
  rcases A.env.host f ⟨A.env.input, t.reported, t.pos⟩ args t.host with ⟨answer, h⟩
  cases answer with
  | ok v => rfl
  | error e => rfl

/-- What the host sees of a call: the place that it reports from, and the place where the machine
stands. -/
theorem call_cases (start : ℕ → ℕ) (f : ActionFn) (args : List Value) (S : Stack) (t : State σ) :
    (∃ x t', x.AtLimit ∧ A.call start f args S t = .error x t') ∨
    A.call start f args S t =
      match A.env.host f ⟨A.env.input, start t.pos, t.pos⟩ args t.host with
      | (.ok v, h) => .ok v { t with reported := start t.pos, steps := t.steps + 2, host := h }
      | (.error e, h) =>
        .error (.host e) { t with reported := start t.pos, steps := t.steps + 2, host := h } := by
  have hmodify {k : Run σ Value} {u : State σ → State σ} {t : State σ} :
      (modify u >>= fun _ => k) t = k (u t) := rfl
  unfold call
  rcases tick_bind_cases A.env.limits S _ t with h | h
  · rw [h, hmodify]
    rcases tick_bind_cases A.env.limits S (A.ask f args) _ with h' | h'
    · rw [h', ask_eq]
      exact .inr rfl
    · exact .inl h'
  · exact .inl h

theorem call_eq_ok {start : ℕ → ℕ} {f : ActionFn} {args : List Value} {t t' : State σ}
    (h : A.call start f args S t = .ok v t') :
    A.env.host f ⟨A.env.input, start t.pos, t.pos⟩ args t.host = (.ok v, t'.host) ∧
      t'.pos = t.pos := by
  rcases A.call_cases start f args S t with ⟨x, u, -, hx⟩ | hx
  · rw [hx] at h
    cases h
  · rw [h] at hx
    split at hx
    · next w host hw =>
      cases hx
      exact ⟨hw, rfl⟩
    · cases hx

theorem giveUp_eq_ok {p : ℕ} {T S' : Stack} {t t' : State σ} (h : A.giveUp p S T t = .ok S' t') :
    S' = .failed :: S := by
  obtain ⟨_, _, -, h⟩ := bind_eq_ok.mp h
  obtain ⟨_, _, -, h⟩ := bind_eq_ok.mp h
  obtain ⟨_, _, -, h⟩ := bind_eq_ok.mp h
  obtain ⟨_, _, -, h⟩ := bind_eq_ok.mp h
  exact (pure_eq_ok.mp h).1.symm

/-- Elements are finished with once they have all matched. -/
theorem elements_eq_ok {p : ℕ} {finish : List Value → Run σ Stack} {cs : List Code}
    {vs : List Value} {S' : Stack} {t t' : State σ}
    (h : A.elements p S finish cs vs t = .ok S' t') :
    S' = .failed :: S ∨ ∃ ws u, finish ws u = .ok S' t' := by
  induction cs generalizing vs t with
  | nil => exact .inr ⟨vs, t, h⟩
  | cons c cs ih =>
    obtain ⟨v, u, -, h⟩ := bind_eq_ok.mp h
    obtain ⟨_, u', -, h⟩ := bind_eq_ok.mp h
    split at h
    · exact .inl (giveUp_eq_ok h)
    · exact ih h

/-- A call reports on the text up to the place where the code that it belongs to ends. -/
theorem finish_eq_ok {p : ℕ} {f : ActionFn} {args : List Value} {T T' S' : Stack} {u t' : State σ}
    (h : (do
      let v ← A.call (fun _ => p) f args T
      tick A.env.limits (v :: T')
      pure (v :: S)) u = .ok S' t') :
    ∃ v, S' = v :: S ∧ A.env.host f ⟨A.env.input, p, t'.pos⟩ args u.host = (.ok v, t'.host) := by
  obtain ⟨v, u', hcall, h⟩ := bind_eq_ok.mp h
  obtain ⟨_, u'', htick, h⟩ := bind_eq_ok.mp h
  obtain ⟨rfl, rfl⟩ := pure_eq_ok.mp h
  obtain rfl := tick_eq_ok htick
  obtain ⟨hhost, hpos⟩ := call_eq_ok hcall
  refine ⟨v, rfl, ?_⟩
  change A.env.host f ⟨A.env.input, p, u'.pos⟩ args u.host = _
  rw [hpos]
  exact hhost

theorem act_eq_ok {code : String} {inner : Code} {S' : Stack} {t t' : State σ}
    (h : A.act e code inner S t = .ok S' t') :
    S' = .failed :: S ∨ ∃ params args v u, S' = v :: S ∧
      A.env.host ⟨params, code⟩ ⟨A.env.input, t.pos, t'.pos⟩ args u = (.ok v, t'.host) := by
  obtain ⟨_, t₁, h₁, h⟩ := bind_eq_ok.mp h
  obtain rfl := tick_eq_ok h₁
  obtain ⟨w, t₂, hget, h⟩ := bind_eq_ok.mp h
  cases hget
  obtain ⟨w, u, -, h⟩ := bind_eq_ok.mp h
  obtain ⟨_, u', -, h⟩ := bind_eq_ok.mp h
  split at h
  · next hf =>
    obtain ⟨x, u'', hx, h⟩ := bind_eq_ok.mp h
    obtain ⟨rfl, rfl⟩ := pure_eq_ok.mp hx
    obtain ⟨_, _, -, h⟩ := bind_eq_ok.mp h
    rw [Value.eq_failed hf] at h
    exact .inl (pure_eq_ok.mp h).1.symm
  · obtain ⟨x, hS, hx⟩ := finish_eq_ok h
    exact .inr ⟨_, _, x, _, hS, hx⟩

/-- The law of places. Code of an expression that starts in the input ends there, or is stopped there,
and not before the place where it starts. An action that does not fail with its operand has reported on
all that the operand has read, from its start to its end. The rest says of each call that is made,
refused or not, where it is made from: by an action once its operand has come to its end, and for the
place where this has started; by a guard for the place where the machine stands. -/
structure KeepsPlaces (A : Activation σ) (g : Grammar) : Prop where
  onward {e : Expr} {ctx : Context} {s : Scope} {c : Code}
    (hc : e.HasCode A.env.program.consts g.ruleIndex? ctx s c) (ip : ℕ) (S : Stack) {t : State σ}
    (ht : t.pos ≤ A.env.input.size) :
    Upholds (fun t' => t.pos ≤ t'.pos ∧ t'.pos ≤ A.env.input.size) (fun _ _ => True)
      (A.exec ip c S t)
  reports {e : Expr} {code : String} {ctx : Context} {s : Scope} {c : Code}
    (hc : (Expr.action e code).HasCode A.env.program.consts g.ruleIndex? ctx s c) {ip : ℕ}
    {S S' : Stack} {t t' : State σ} (h : A.exec ip c S t = .ok S' t') :
    S' = .failed :: S ∨ ∃ params args v u, S' = v :: S ∧
      A.env.host ⟨params, code⟩ ⟨A.env.input, t.pos, t'.pos⟩ args u = (.ok v, t'.host)
  asks (start : ℕ → ℕ) (f : ActionFn) (args : List Value) (S : Stack) (t : State σ) :
    (∃ x t', x.AtLimit ∧ A.call start f args S t = .error x t') ∨
    A.call start f args S t =
      match A.env.host f ⟨A.env.input, start t.pos, t.pos⟩ args t.host with
      | (.ok v, h) => .ok v { t with reported := start t.pos, steps := t.steps + 2, host := h }
      | (.error e, h) =>
        .error (.host e) { t with reported := start t.pos, steps := t.steps + 2, host := h }
  actionOfElements {e : Expr} {es : List Expr} {code : String} {ctx : Context} {s : Scope} {c : Code}
    (hc : (Expr.action (.sequence (e :: es)) code).HasCode A.env.program.consts g.ruleIndex? ctx s
      c) :
    ∃ cs, ElementCodes A.env.program.consts g.ruleIndex? (e :: es) (ctx.sp + 1) [] cs ∧
      ∀ ip S, A.exec ip c S = A.sequence (fun p vs => do
        let bs : Bindings := ((e :: es).map Expr.label?).zip vs
        let v ← A.call (fun _ => p) ⟨bs.params, code⟩ bs.args (vs.reverse ++ .pos p :: S)
        tick A.env.limits (v :: .pos p :: S)
        pure (v :: S)) cs S
  action {e : Expr} {code : String} {ctx : Context} {s : Scope} {c : Code}
    (hc : (Expr.action e code).HasCode A.env.program.consts g.ruleIndex? ctx s c)
    (hl : e.hasElements = false) :
    ∃ inner, e.HasCode A.env.program.consts g.ruleIndex? (ctx.push 1) [] inner ∧
      ∀ ip S, A.exec ip c S = A.act e code inner S
  guard (negated : Bool) {code : String} {ctx : Context} {s : Scope} {c : Code} {bs : Bindings}
    {S : Stack}
    (hc : (if negated then Expr.guardNot code else .guard code).HasCode A.env.program.consts
      g.ruleIndex? ctx s c)
    (hs : InScope bs ctx.sp s S) (ip : ℕ) :
    A.exec ip c S = (do
      let v ← A.call id ⟨bs.params, code⟩ bs.args S
      tick A.env.limits (v :: S)
      tick A.env.limits (v :: S)
      tick A.env.limits S
      pure ((if v.isTruthy = negated then .failed else .undefined) :: S))

end Activation

/-- The host can be relied on for nothing but the order of places. -/
theorem Env.trusts_nothing {env : Env σ} {o : ℕ} {J : Report → σ → Prop}
    (hr : ∀ r h p e, env.input.Onward o p → J r h → J (r.record p e) h)
    (hc : ∀ f args reported pos r h, env.input.Onward o reported → env.input.Onward reported pos →
      J r h → J r (env.host f ⟨env.input, reported, pos⟩ args h).2) :
    env.Trusts Demand.nothing.calls o (fun _ => True) J where
  undefined := trivial
  null := trivial
  string _ := trivial
  array _ := by simp
  record hp hJ e := hr _ _ _ e hp hJ
  call _ _ _ ho hpos hJ := ⟨hc _ _ _ _ _ _ ho hpos hJ, fun _ _ => trivial⟩

theorem Activation.keepsPlaces {A : Activation σ} (g : Grammar)
    (hK : A.env.program.consts.length ≤ UInt32.size)
    (hr : ∀ o j, UpholdsRule A.env o (fun _ => True) (fun _ _ => True) (A.rule j)) :
    A.KeepsPlaces g := by
  have haction {e : Expr} {code : String} {ctx : Context} {s : Scope} {c : Code}
      (hc : (Expr.action e code).HasCode A.env.program.consts g.ruleIndex? ctx s c)
      (hl : e.hasElements = false) :
      ∃ inner, e.HasCode A.env.program.consts g.ruleIndex? (ctx.push 1) [] inner ∧
        ∀ ip S, A.exec ip c S = A.act e code inner S := by
    obtain ⟨f, inner, call, answer, rfl, hf, he, hcall, ha⟩ := hc.of_yields (e.yields_action hl _ _)
    exact ⟨inner, he, exec_action he.shape (hf.has hK) hcall ha⟩
  constructor
  case onward =>
    intro e ctx s c hc ip S t ht
    have hu : A.env.Trusts Demand.nothing.calls t.pos (fun _ => True) fun _ _ => True :=
      Env.trusts_nothing (fun _ _ _ _ _ _ => trivial) fun _ _ _ _ _ _ _ _ _ => trivial
    have hrun := hc.shape.upholds (D := .nothing) trivial hK hu (hr t.pos) ⟨.refl _ _, trivial⟩ ip S
    exact hrun.imp (fun t' hin => hin.1 ht) fun _ _ _ _ => trivial
  case reports =>
    intro e code ctx s c hc ip S S' t t' h
    cases hl : e.hasElements with
    | true =>
      obtain ⟨d, es, rfl⟩ := Expr.eq_sequence hl
      obtain ⟨cs, -, hx⟩ := (A.bindsLabels g hK).action hc
      rw [hx] at h
      obtain ⟨_, t₁, h₁, h⟩ := bind_eq_ok.mp h
      obtain rfl := tick_eq_ok h₁
      obtain ⟨w, t₂, hget, h⟩ := bind_eq_ok.mp h
      cases hget
      rcases elements_eq_ok h with h | ⟨vs, u, h⟩
      · exact .inl h
      · obtain ⟨v, hS, hv⟩ := finish_eq_ok h
        exact .inr ⟨_, _, v, _, hS, hv⟩
    | false =>
      obtain ⟨inner, -, hx⟩ := haction hc hl
      rw [hx] at h
      exact act_eq_ok h
  case asks => exact call_cases
  case actionOfElements => exact (A.bindsLabels g hK).action
  case action => exact haction
  case guard => exact (A.bindsLabels g hK).guard

/-- The call is made in the input, at a place that is not before the one it reports from, and the text
that the host sees is what stands between the two. -/
structure HostCall.InPlace (input : String) (c : HostCall) : Prop where
  reported_le : c.context.reported ≤ c.context.pos
  pos_le : c.context.pos ≤ input.length
  text : c.context.text.toList =
    (input.toList.drop c.context.reported).take (c.context.pos - c.context.reported)
  length : c.context.text.length = c.context.pos - c.context.reported

theorem HostCall.inPlace {f : ActionFn} {args : List Value} {reported pos : ℕ}
    (hle : reported ≤ pos) (hpos : pos ≤ input.length) :
    HostCall.InPlace input ⟨f, ⟨.ofString input, reported, pos⟩, args⟩ := by
  have htext : CallContext.text ⟨.ofString input, reported, pos⟩ =
      .ofList ((input.toList.drop reported).take (pos - reported)) := by
    simp [CallContext.text, Input.text, Input.ofString]
  constructor
  case reported_le => exact hle
  case pos_le => exact hpos
  case text => rw [htext, String.toList_ofList]
  case length =>
    have hlen := String.length_toList (s := input)
    rw [htext]
    simp
    omega

/-- The machine stands in the input, the furthest failure lies in it, and so do the calls on record. -/
structure State.InPlace (input : String) (t : State (σ × List HostCall)) : Prop where
  pos_le : t.pos ≤ input.length
  report_le : t.report.pos ≤ input.length
  calls : ∀ c ∈ t.host.2, c.InPlace input

theorem Input.size_ofString (input : String) : (Input.ofString input).size = input.length := by
  rw [Input.ofString, List.size_toArray, String.length_toList]

theorem Machine.trusts_inPlace (p : Program) (H : Host σ) (limits : Limits) (fuel : ℕ)
    (input : String) :
    ((Machine.mk p H.recorded limits fuel).env input).Trusts Demand.nothing.calls 0 (fun _ => True)
      fun r h => r.pos ≤ input.length ∧ ∀ c ∈ h.2, c.InPlace input := by
  have hin {q : ℕ} (hq : (Input.ofString input).Onward 0 q) : q ≤ input.length := by
    rw [← Input.size_ofString]
    exact (hq (Nat.zero_le _)).2
  refine Env.trusts_nothing (fun r h q e hq hJ => ?_) fun f args reported pos r h ho hp hJ => ?_
  · refine ⟨?_, hJ.2⟩
    rw [Report.record_pos]
    exact max_le hJ.1 (hin hq)
  · refine ⟨hJ.1, ?_⟩
    have hle := (hp (ho (Nat.zero_le _)).2).1
    intro c hc
    rcases List.mem_append.mp hc with hc | hc
    · exact hJ.2 c hc
    · obtain rfl := List.mem_singleton.mp hc
      exact HostCall.inPlace hle (hin (ho.trans hp))

namespace Grammar

theorem Makes.inPlace_run (hg : g.Makes p) (H : Host σ) (limits : Limits) (fuel i : ℕ)
    (input : String) {s : State (σ × List HostCall)} (hs : s.host.2 = []) :
    Upholds (State.InPlace input) (fun o t => o.pos = t.pos ∧ o.report = t.report)
      ((Machine.mk p H.recorded limits fuel).run i input s) := by
  let m : Machine (σ × List HostCall) := ⟨p, H.recorded, limits, fuel⟩
  have hu := Machine.trusts_inPlace p H limits fuel input
  have hrule := hg.upholds_rule (m := m) input hu limits.callDepth i
  have hrun := m.upholds_run (t := s) hrule (by simp [hs])
  refine hrun.imp (fun t ht => ?_) fun _ _ _ ho => ho.2
  have hpos := (ht.1 (Nat.zero_le _)).2
  rw [Input.size_ofString] at hpos
  exact ⟨hpos, ht.2.1, ht.2.2⟩

/-- Runs of a compiled grammar stay in the input, at the end and at each of their instructions, and so
do their furthest failures and their calls. Expressions do not end before the place where they start;
actions report what their operands have read, and guards report no text. -/
theorem generate_keepsPlaces (hg : g.generate verify = .ok p) (H : Host σ) (limits : Limits)
    (fuel : ℕ) (input : String) :
    (∀ i s, s.host.2 = [] →
      Upholds (fun t => t.InPlace input ∧ ∀ k < t.steps, ∃ u,
          (Machine.mk p H.recorded limits fuel).Meets i input s k u ∧ u.steps = k + 1 ∧
            u.InPlace input)
        (fun o t => o.pos = t.pos ∧ o.report = t.report)
        ((Machine.mk p H.recorded limits fuel).run i input s)) ∧
    ∀ depth name, ((Machine.mk p H limits fuel).activation input depth name).KeepsPlaces g := by
  have hmakes := generate_makes hg
  constructor
  · intro i s hs
    let m : Machine (σ × List HostCall) := ⟨p, H.recorded, limits, fuel⟩
    have hmeets : ∀ k < (last (m.run i input s)).steps, ∃ u, m.Meets i input s k u ∧
        u.steps = k + 1 ∧ u.InPlace input := by
      intro k hk
      obtain ⟨u, hu, hsteps⟩ := m.exists_meets i input s hk
      have hcut := hmakes.inPlace_run H (m.cut k).limits fuel i input hs
      change Upholds _ _ ((m.cut k).run i input s) at hcut
      rw [hu] at hcut
      exact ⟨u, hu, hsteps, hcut⟩
    have hrun := hmakes.inPlace_run H limits fuel i input hs
    change Upholds _ _ (m.run i input s) at hrun ⊢
    generalize m.run i input s = r at hmeets hrun ⊢
    cases r with
    | ok o t => exact ⟨⟨hrun.1, hmeets⟩, hrun.2⟩
    | error x t => exact ⟨hrun, hmeets⟩
  · intro depth name
    let m : Machine σ := ⟨p, H, limits, fuel⟩
    refine Activation.keepsPlaces g hmakes.consts fun o j => ?_
    exact hmakes.upholds_rule (m := m) input (D := .nothing)
      (Env.trusts_nothing (fun _ _ _ _ _ _ => trivial) fun _ _ _ _ _ _ _ _ _ => trivial) depth j

/-- Two letters: what the host is told of the second is that it stands between the places 1 and 2. The
second instruction of the run is met in the input. -/
theorem generate_keepsPlaces_letters :
    let g : Grammar := ⟨[⟨"list", .zeroOrMore (.rule "letter")⟩,
      ⟨"letter", .action (.labeled "x" .any) "x"⟩]⟩
    let H : Host Unit := fun _ _ args h => (.ok (args.headD .null), h)
    let c : HostCall := ⟨⟨["x"], "x"⟩, ⟨.ofString "ab", 1, 2⟩, [.string "b"]⟩
    ∃ p o t u, g.generate true = .ok p ∧
      (Machine.mk p H.recorded {} 3).run 0 "ab" (.start ((), [])) = .ok o t ∧ o.pos = 2 ∧
      c ∈ t.host.2 ∧ c.InPlace "ab" ∧ c.context.text.toList = ['b'] ∧
      (Machine.mk p H.recorded {} 3).Meets 0 "ab" (.start ((), [])) 1 u ∧ u.pos ≤ "ab".length := by
  intro g H c
  let list : Code := [0, 0, 25, 1, 14, 3, 6, 25, 1, 2]
  let letter : Code := [1, 15, 2, 2, 19, 1, 21, 1, 11, 7, 0, 22, 1, 24, 2, 1, 1, 0, 5]
  let p : Program := ⟨[⟨"list", list⟩, ⟨"letter", letter⟩],
    [.emptyArray, .expectation .anyChar, .function ⟨["x"], "x"⟩]⟩
  have hg : g.generate true = .ok p := by decide +kernel
  have hl : p.load = [⟨"list", .instr 0 (.push 0) (.instr 2 (.rule 1) (.loop 4 3
      (.instr 6 .append (.instr 7 (.rule 1) .done)) (.instr 9 .pop .done)))⟩,
    ⟨"letter", .instr 0 .pushPos (.branch 1 .any 2 2 (.instr 4 (.acceptN 1) .done)
      (.instr 6 (.fail 1) .done) (.branch 8 .isMatched 7 0 (.instr 11 (.reportSaved 1)
        (.call 13 2 1 [0] .done)) .done (.instr 18 .nip .done)))⟩] := by
    decide +kernel
  have hr : ∃ o t, (Machine.mk p H.recorded {} 3).run 0 "ab" (.start ((), [])) = .ok o t ∧
      o.pos = 2 ∧ 1 < t.steps ∧ ∃ first, t.host.2 = [first, c] := by
    rw [Machine.run, hl]
    exact ⟨_, _, rfl, rfl, by decide, _, rfl⟩
  obtain ⟨o, t, hr, hpos, hsteps, first, hcalls⟩ := hr
  have hc : c ∈ t.host.2 := by simp [hcalls]
  have hrun := (generate_keepsPlaces hg H {} 3 "ab").1 0 (.start ((), [])) rfl
  rw [hr] at hrun
  obtain ⟨⟨hin, hmeets⟩, -⟩ := hrun
  obtain ⟨u, hu, -, hplace⟩ := hmeets 1 hsteps
  exact ⟨p, o, t, u, hg, hr, hpos, hc, hin.calls c hc, (hin.calls c hc).text, hu, hplace.pos_le⟩

end Grammar
end PegMachine
