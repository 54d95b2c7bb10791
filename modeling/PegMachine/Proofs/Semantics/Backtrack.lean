import PegMachine.Proofs.Semantics.Rollback

/-! What choices, options and repetitions do where a part of them fails. They save no place of their
own, so they go on at the place where that part has left the input. -/
namespace PegMachine

variable {σ : Type}

/-- An expression that is matched as often as it can be, but at least and at most so many times, with
a delimiter between two matches. -/
structure Repetition where
  operand : Expr
  least : ℕ
  most : Option UInt32
  delimiter : Option Expr

/-- What the expression repeats, if it is a repetition. -/
def Expr.repetition? : Expr → Option Repetition
  | .zeroOrMore e => some ⟨e, 0, none, none⟩
  | .oneOrMore e => some ⟨e, 1, none, none⟩
  | .bounded e min max d => some ⟨e, min.elim 0 UInt32.toNat, max, d⟩
  | _ => none

namespace Repetition

/-- No more than these may be gathered. -/
def isFull (r : Repetition) (vs : List Value) : Bool := r.most.any fun n => n.toNat ≤ vs.length

/-- The value of a repetition that ends with these. -/
def result (r : Repetition) (vs : List Value) : Value :=
  if vs.length < r.least then .failed else .array vs

/-- What decides over the place where an attempt fails: after a delimiter the operand does not, as
the place before the delimiter is gone back to. -/
def deciding (r : Repetition) (vs : List Value) : Expr :=
  if vs.isEmpty then r.operand else r.delimiter.getD r.operand

/-- The code `later` of all attempts but the first, whose code is `first`. -/
def LaterCode (r : Repetition) (K : List Constant) (rules : String → Option ℕ) (ctx : Context)
    (first later : Code) : Prop :=
  r.delimiter = none ∧ later = first ∨
    ∃ failed, Numbers K failed .failed ∧ NextShape K rules failed first r.delimiter ctx later

variable (r : Repetition) (env : Walk.Env σ) (fuel : ℕ) (wrule : String → Walk σ Value)

open Walk

/-- Walks an attempt that is not the first. -/
def later : Walk σ Value :=
  walkNext env fuel wrule (r.operand.walk env fuel wrule []) r.delimiter

/-- Walks the next attempt after `vs`. -/
def attempt (vs : List Value) : Walk σ Value :=
  if vs.isEmpty then r.operand.walk env fuel wrule [] else r.later env fuel wrule

/-- Walks what is left of a repetition once `v` has come of the attempt after `vs`, with `n` passes
for its loop. -/
def settle (n : ℕ) (vs : List Value) (v : Value) : Walk σ Value := do
  let ws ← gather (fun ws => if r.isFull ws then pure .failed else r.later env fuel wrule) n vs v
  pure (r.result ws)

end Repetition

/-- How far a repetition has come that was started in state `t` on the stack `S`: it has gathered `vs`
and makes its next attempt in state `u`. Its attempts run `first` and from then on `later`. Between
them the run makes no progress. -/
inductive Activation.Gathers (A : Activation σ) (r : Repetition) (first later : Code) (S : Stack)
    (t : State σ) : List Value → State σ → Prop
  | start {u : State σ} (hu : u.toProgress = t.toProgress) : Gathers A r first later S t [] u
  | round {vs : List Value} {v : Value} {u u' u'' : State σ} {ip : ℕ}
      (h : Gathers A r first later S t vs u)
      (ha : A.exec ip (if vs.isEmpty then first else later) (.array vs :: S) u =
        .ok (v :: .array vs :: S) u')
      (hv : v.isFailed = false) (hf : r.isFull (vs ++ [v]) = false)
      (hu : u''.toProgress = u'.toProgress) : Gathers A r first later S t (vs ++ [v]) u''

/-- The run leaves the stack `S` and ends at place `p`, unless it meets a limit or a loop has more
passes than were granted. -/
def EndsAt (S : Stack) (p : ℕ) : EStateM.Result Stop (State σ) Stack → Prop
  | .ok S' t => S' = S ∧ t.pos = p
  | .error x _ => x.AtLimit ∨ x = .fuel

open Run

/-- The law of backtracking, where the part that fails satisfies `P`: what has been started at some
place and fails has gone back to that place, and there the next alternative is tried, the option
yields nothing, or the repetition ends with what it has gathered. -/
structure Activation.Backtracks (A : Activation σ) (g : Grammar) (P : Expr → Prop) : Prop where
  choice {e e' : Expr} {es : List Expr} {ctx : Context} {s : Scope} {p q : Pool} {c : Code}
    (hc : (Expr.choice (e :: e' :: es)).compile g.ruleIndex? ctx s p = .ok (c, q))
    (hq : q.consts <+: A.env.program.consts) (he : P e) : ∃ first others p',
      e.compile g.ruleIndex? (ctx.push 0) [] p = .ok (first, p') ∧
      (Expr.choice (e' :: es)).compile g.ruleIndex? ctx s p' = .ok (others, q) ∧
      ∀ ip S t u, A.exec ip first S t = .ok (.failed :: S) u → u.pos = t.pos ∧ ∃ j,
        A.exec ip c S t = (do
          tick A.env.limits (.failed :: S)
          tick A.env.limits (.failed :: S)
          A.exec j others S) u
  optional {e : Expr} {ctx : Context} {s : Scope} {c : Code}
    (hc : (Expr.optional e).HasCode A.env.program.consts g.ruleIndex? ctx s c) (he : P e) : ∃ first,
      e.Shape A.env.program.consts g.ruleIndex? (ctx.push 0) [] first ∧
      ∀ ip ip' S t u, A.exec ip first S t = .ok (.failed :: S) u → u.pos = t.pos ∧
        EndsAt (.null :: S) t.pos (A.exec ip' c S t)
  repetition {e : Expr} {r : Repetition} {ctx : Context} {s : Scope} {c : Code}
    (hr : e.repetition? = some r)
    (hc : e.HasCode A.env.program.consts g.ruleIndex? ctx s c) : ∃ first later,
      r.operand.Shape A.env.program.consts g.ruleIndex? (ctx.push 1) [] first ∧
      r.LaterCode A.env.program.consts g.ruleIndex? (ctx.push 2) first later ∧
      ∀ S t vs u u' ip ip', A.Gathers r first later S t vs u → P (r.deciding vs) →
        A.exec ip (if vs.isEmpty then first else later) (.array vs :: S) u =
          .ok (.failed :: .array vs :: S) u' →
        u'.pos = u.pos ∧ EndsAt (r.result vs :: S) u.pos (A.exec ip' c S t)

open Walk

theorem Walk.gather_bind_congr {again : List Value → Walk σ Value} {fuel : ℕ} {vs : List Value}
    {v : Value} {k k' : List Value → Walk σ Value} (hv : v.isFailed = false)
    (h : ∀ ws, 0 < ws.length → k ws = k' ws) :
    gather again fuel vs v >>= k = gather again fuel vs v >>= k' := by
  funext s
  change EStateM.bind _ _ _ = EStateM.bind _ _ _
  unfold EStateM.bind
  cases hg : gather again fuel vs v s with
  | ok ws t => exact congrFun (h ws (gather_pos hv hg)) t
  | error x t => rfl

namespace Repetition

/-- Walks a repetition, made of walks of its first attempt and of the later ones. -/
def rounds (r : Repetition) (fuel : ℕ) (first later : Walk σ Value) : Walk σ Value := do
  let v ← first
  let vs ← gather (fun vs => if r.isFull vs then pure .failed else later) fuel [] v
  pure (r.result vs)

variable {e : Expr} {fuel : ℕ} {first later : Walk σ Value}

theorem rounds_oneOrMore : (Repetition.mk e 1 none none).rounds fuel first later = (do
    let v ← first
    if v.isFailed then pure v
    else do
      let vs ← gather (fun _ => later) fuel [] v
      pure (.array vs)) := by
  refine bind_congr fun v => ?_
  rcases v.eq_failed_or with rfl | hv
  · rw [gather_failed]
    rfl
  · rw [hv]
    -- with one match there are enough
    refine gather_bind_congr hv fun vs hvs => ?_
    rw [result, if_neg (Nat.not_lt.mpr hvs)]

theorem rounds_bounded {min max : Option UInt32} {d : Option Expr} :
    (Repetition.mk e (min.elim 0 UInt32.toNat) max d).rounds fuel first later = (do
      let v ← first
      let vs ← gather (fun vs => if max.any fun n => n.toNat ≤ vs.length then pure .failed
        else later) fuel [] v
      pure (if min.any fun n => vs.length < n.toNat then .failed else .array vs)) := by
  refine bind_congr fun v => bind_congr fun vs => ?_
  cases min with
  | none => rfl
  | some n => by_cases h : vs.length < n.toNat <;> simp [result, h]

end Repetition

section

variable {env : Walk.Env σ} {fuel : ℕ} {wrule : String → Walk σ Value} {e : Expr} {r : Repetition}
  {ls : Labels Value} {vs : List Value} {v : Value}

namespace Repetition

/-- An attempt that matches is gathered, and the next one is made unless no more may be. -/
theorem settle_matched (n : ℕ) (hv : v.isFailed = false) (hf : r.isFull (vs ++ [v]) = false) :
    r.settle env fuel wrule (n + 1) vs v =
      r.attempt env fuel wrule (vs ++ [v]) >>= r.settle env fuel wrule n (vs ++ [v]) := by
  have hne : (vs ++ [v]).isEmpty = false := by simp
  rw [settle, gather_matched hv, hf, attempt, hne, bind_assoc]
  rfl

theorem settle_failed (n : ℕ) : r.settle env fuel wrule n vs .failed = pure (r.result vs) := by
  rw [settle, gather_failed, pure_bind]

theorem settle_zero (hv : v.isFailed = false) :
    r.settle env fuel wrule 0 vs v = throw .fuel := by
  rw [settle, gather_zero hv]
  rfl

end Repetition

/-- The three kinds of repetition are walked alike. -/
theorem Expr.walk_rounds (hr : e.repetition? = some r) :
    e.walk env fuel wrule ls =
      r.rounds fuel (r.operand.walk env fuel wrule []) (r.later env fuel wrule) := by
  cases e with
  | zeroOrMore e =>
    obtain rfl := Option.some.inj hr
    rw [Expr.walk]
    rfl
  | oneOrMore e =>
    obtain rfl := Option.some.inj hr
    rw [Expr.walk, Repetition.rounds_oneOrMore]
    rfl
  | bounded e min max d =>
    obtain rfl := Option.some.inj hr
    rw [Expr.walk, Repetition.rounds_bounded]
    rfl
  | _ => cases hr

theorem Expr.walk_repetition (hr : e.repetition? = some r) :
    e.walk env fuel wrule ls =
      r.attempt env fuel wrule [] >>= r.settle env fuel wrule fuel [] :=
  walk_rounds hr

end

variable {A : Activation σ} {r : Repetition} {first later : Code} {S : Stack} {t u u' : State σ}
  {vs : List Value} {wrule : String → Walk σ Value}

/-- A repetition that has come so far goes on, on the walk, from its next attempt, unless the walk has
run out of passes before. -/
theorem Activation.Gathers.walk_eq (h : A.Gathers r first later S t vs u)
    (hc : ∀ vs S, Computes A (if vs.isEmpty then first else later) S
      (r.attempt A.walkEnv A.fuel wrule vs)) :
    (∃ x, (r.attempt A.walkEnv A.fuel wrule [] >>= r.settle A.walkEnv A.fuel wrule A.fuel [])
        t.toProgress = .error .fuel x) ∨
      ∃ n, (r.attempt A.walkEnv A.fuel wrule [] >>= r.settle A.walkEnv A.fuel wrule A.fuel [])
          t.toProgress =
        (r.attempt A.walkEnv A.fuel wrule vs >>= r.settle A.walkEnv A.fuel wrule n vs)
          u.toProgress := by
  induction h with
  | start hu =>
    right
    exact ⟨A.fuel, by rw [hu]⟩
  | @round vs v u u' u'' ip h ha hv hf hu ih =>
    rcases ih with hx | ⟨n, hn⟩
    · exact .inl hx
    · have hw := (hc vs _).walk_eq ha
      have hstep : (r.attempt A.walkEnv A.fuel wrule vs >>= r.settle A.walkEnv A.fuel wrule n vs)
          u.toProgress = r.settle A.walkEnv A.fuel wrule n vs v u'.toProgress := by
        change EStateM.bind _ _ _ = _
        rw [EStateM.bind, hw]
      rw [hstep] at hn
      cases n with
      | zero =>
        left
        rw [Repetition.settle_zero hv] at hn
        exact ⟨_, hn⟩
      | succ n =>
        right
        rw [Repetition.settle_matched n hv hf, ← hu] at hn
        exact ⟨n, hn⟩

theorem Computes.endsAt {c : Code} {w : Walk σ Value} {v : Value} {x : Progress σ} {ip : ℕ}
    (hc : Computes A c S w) (hw : w t.toProgress = .ok v x) :
    EndsAt (v :: S) x.pos (A.exec ip c S t) := by
  have hm := hc ip t
  rw [hw] at hm
  generalize A.exec ip c S t = y at hm ⊢
  cases hm with
  | ok hS => exact ⟨hS, rfl⟩
  | limit hx => exact .inl hx

theorem Computes.endsAt_fuel {c : Code} {w : Walk σ Value} {x : Progress σ} {ip p : ℕ} {T : Stack}
    (hc : Computes A c S w) (hw : w t.toProgress = .error .fuel x) :
    EndsAt T p (A.exec ip c S t) := by
  have hm := hc ip t
  rw [hw] at hm
  generalize A.exec ip c S t = y at hm ⊢
  cases hm with
  | limit hx => exact .inl hx
  | fuel => exact .inr rfl

/-- A later attempt behind a delimiter goes back itself once the delimiter has matched. -/
theorem restores_walkNext {env : Walk.Env σ} {fuel : ℕ} {operand : Walk σ Value} {d : Expr}
    (hd : Restores (d.walk env fuel wrule [])) :
    Restores (walkNext env fuel wrule operand (some d)) := by
  rw [walkNext]
  intro s t ht
  obtain ⟨p, s', hp, ht⟩ := estate_bind_eq_ok.mp ht
  cases hp
  obtain ⟨v, u, hv, ht⟩ := estate_bind_eq_ok.mp ht
  cases hf : v.isFailed with
  | true =>
    rw [hf] at ht
    obtain ⟨rfl, rfl⟩ := estate_pure_eq_ok.mp ht
    exact hd s u hv
  | false =>
    rw [hf] at ht
    have hback : FailsAt s.pos (operand >>= fun v => if v.isFailed then (do
        seek s.pos
        pure .failed) else pure v) := by
      refine .bind fun v => ?_
      cases hv : v.isFailed with
      | true => exact failsAt_seek _
      | false => exact (succeeds_pure hv).failsAt
    exact hback u t ht

theorem Repetition.restores_attempt {g : Grammar} {env : Walk.Env σ} {fuel : ℕ}
    (hw : ∀ e, g.Steady e → Restores (e.walk env fuel wrule []))
    (hd : g.Steady (r.deciding vs)) : Restores (r.attempt env fuel wrule vs) := by
  unfold deciding at hd
  unfold attempt later
  cases hvs : vs.isEmpty with
  | true =>
    rw [hvs] at hd
    exact hw _ hd
  | false =>
    rw [hvs] at hd
    cases hdel : r.delimiter with
    | none =>
      rw [hdel] at hd
      rw [walkNext]
      exact hw _ hd
    | some d =>
      rw [hdel] at hd
      exact restores_walkNext (hw d hd)

/-- A repetition has code for its first attempt and for the later ones. No label in scope around it
and no pending action matters to its code. -/
theorem Expr.Shape.repetition {K : List Constant} {rules : String → Option ℕ} {e : Expr}
    {ctx : Context} {s : Scope} {c : Code} (hr : e.repetition? = some r)
    (hc : e.Shape K rules ctx s c) : e.Shape K rules ⟨ctx.sp, none⟩ [] c ∧
      ∃ first later, r.operand.Shape K rules (ctx.push 1) [] first ∧
        r.LaterCode K rules (ctx.push 2) first later := by
  cases hc with
  | zeroOrMore hy he hm =>
    obtain rfl := Option.some.inj hr
    exact ⟨.zeroOrMore hy he hm, _, _, he, .inl ⟨rfl, rfl⟩⟩
  | oneOrMore hy hd he hm hb =>
    obtain rfl := Option.some.inj hr
    exact ⟨.oneOrMore hy hd he hm hb, _, _, he, .inl ⟨rfl, rfl⟩⟩
  | bounded hy hd hl hg he hn hm hb ho =>
    obtain rfl := Option.some.inj hr
    exact ⟨.bounded hy hd hl hg he hn hm hb ho, _, _, he, .inr ⟨_, hd, hn⟩⟩
  | _ => cases hr

/-- The code of an attempt emulates the walk of that attempt. -/
theorem Repetition.computes_attempt {rules : String → Option ℕ} {ctx ctx' : Context}
    (hK : A.env.program.consts.length ≤ UInt32.size) (hsound : ∀ e : Expr, e.Sound A rules wrule)
    (hf : r.operand.Shape A.env.program.consts rules ctx [] first) (ha : ctx.action = none)
    (hl : r.LaterCode A.env.program.consts rules ctx' first later) (ha' : ctx'.action = none)
    (vs : List Value) (S : Stack) : Computes A (if vs.isEmpty then first else later) S
      (r.attempt A.walkEnv A.fuel wrule vs) := by
  have hfirst := fun S => hsound r.operand ctx [] first S [] ha hf .nil
  unfold attempt
  cases vs.isEmpty with
  | true => exact hfirst S
  | false =>
    unfold Repetition.later
    rcases hl with ⟨hd, rfl⟩ | ⟨failed, hd, hn⟩
    · rw [hd, walkNext]
      exact hfirst S
    · exact Computes.next (fun e _ => hsound e) (hd.has hK) hf.whole hfirst hn ha'

/-- An alternative that fails is dropped, and the others are run. -/
theorem Activation.exec_others {others rest : Code} (hf : first.Whole)
    (hr : Code.branch (Test.words .isFailed) (Code.seq [.pop] ++ others) [] = .ok rest) {ip : ℕ}
    (hx : A.exec ip first S t = .ok (.failed :: S) u) :
    ∃ j, A.exec ip (first ++ rest) S t = (do
      tick A.env.limits (.failed :: S)
      tick A.env.limits (.failed :: S)
      A.exec j others S) u := by
  obtain ⟨j, k, hb⟩ := A.exec_branch hr (ip + first.length) (.failed :: S)
  refine ⟨j + Instr.pop.words.length, ?_⟩
  rw [exec_append hf]
  change EStateM.bind _ _ _ = _
  rw [EStateM.bind, hx]
  change A.exec (ip + first.length) rest (.failed :: S) u = _
  rw [hb]
  -- the answer to the test is known
  change (tick _ _ >>= fun _ => A.exec j (Code.seq [.pop] ++ others) (.failed :: S)) u = _
  rw [Code.seq_cons, Code.seq_nil, List.append_nil, exec_append (Code.whole_instr _), exec_instr,
    bind_assoc]
  rfl

theorem Compile.lift_eq_ok {α : Type} {x : Except CompileError α} {p q : Pool} {a : α} :
    (liftM x : Compile α) p = .ok (a, q) ↔ x = .ok a ∧ p = q := by
  cases x with
  | error e =>
    constructor
    · intro h
      cases h
    · rintro ⟨⟨⟩, -⟩
  | ok b =>
    constructor
    · intro h
      obtain ⟨rfl, rfl⟩ := Prod.mk.inj (Except.ok.inj h)
      exact ⟨rfl, rfl⟩
    · rintro ⟨⟨⟩, rfl⟩
      rfl

namespace Grammar

variable {g : Grammar} {m : Machine σ} {verify : Bool}

/-- In the program of a grammar what fails is backed out of, if no bounded repetition that asks for two
matches or more can be reached from it through no sequence. -/
theorem generate_backtracks (hg : g.generate verify = .ok m.program) (hH : m.host.NeverFails)
    (input : String) (depth : ℕ) (name : String) :
    (m.activation input depth name).Backtracks g g.Steady := by
  have hmakes := generate_makes hg
  have hsound := hmakes.expr_sound input depth name
  have hsteady : ∀ e, g.Steady e → Restores (e.walk ⟨m.host, .ofString input⟩ m.fuel
      (g.ruleWalk ⟨m.host, .ofString input⟩ m.fuel depth) []) :=
    fun e he => restores_expr hH m.fuel depth he []
  constructor
  case choice =>
    intro e e' es ctx s p q c hc hq he
    rw [Expr.compile, compileChoice] at hc
    obtain ⟨first, p', hfirst, hc⟩ := Compile.bind_eq_ok.mp hc
    obtain ⟨others, q', hothers, hc⟩ := Compile.bind_eq_ok.mp hc
    obtain ⟨rest, q'', hrest, hc⟩ := Compile.bind_eq_ok.mp hc
    obtain ⟨hbranch, rfl⟩ := Compile.lift_eq_ok.mp hrest
    obtain ⟨rfl, rfl⟩ := Prod.mk.inj (Except.ok.inj hc)
    have hchoice : (Expr.choice (e' :: es)).compile g.ruleIndex? ctx s p' = .ok (others, q') := by
      rw [Expr.compile]
      exact hothers
    have hgrows := (Expr.yields_code (K := m.program.consts) _ ctx s p' others q' hchoice).1
    have hshape := Expr.HasCode.shape ⟨_, _, hfirst, hgrows.1.trans hq⟩
    refine ⟨first, others, p', hfirst, hchoice, fun ip S t u hx => ⟨?_, ?_⟩⟩
    · exact (hsound e _ _ _ S [] rfl hshape .nil).pos_eq (hsteady e he) hx
    · exact Activation.exec_others hshape.whole hbranch hx
  case optional =>
    intro e ctx s c hc he
    cases hc.shape with
    | @optional _ _ _ null first other hn hfirst ho =>
      refine ⟨first, hfirst, fun ip ip' S t u hx => ?_⟩
      have hinner := hsound e (ctx.push 0) [] first S [] rfl hfirst .nil
      have hpos := hinner.pos_eq (hsteady e he) hx
      have hwalk := Computes.optional hfirst.whole hinner (hn.has hmakes.consts) ho
      refine ⟨hpos, hpos ▸ hwalk.endsAt ?_⟩
      exact estate_bind_eq_ok.mpr ⟨_, _, hinner.walk_eq hx, rfl⟩
  case repetition =>
    intro e r ctx s c hr hc
    obtain ⟨hshape, first, later, hfirst, hlater⟩ := hc.shape.repetition hr
    refine ⟨first, later, hfirst, hlater, fun S t vs u u' ip ip' hgathers hd hx => ?_⟩
    have hattempt := Repetition.computes_attempt hmakes.consts hsound hfirst rfl hlater rfl
    have hpos := (hattempt vs _).pos_eq (r.restores_attempt hsteady hd) hx
    have hcode := hsound e _ [] c S [] rfl hshape .nil
    rw [Expr.walk_repetition hr] at hcode
    refine ⟨hpos, ?_⟩
    rcases hgathers.walk_eq hattempt with ⟨x, hfuel⟩ | ⟨n, hn⟩
    · exact hcode.endsAt_fuel hfuel
    · rw [← hpos]
      refine hcode.endsAt (x := u'.toProgress) (hn.trans ?_)
      refine estate_bind_eq_ok.mpr ⟨_, _, (hattempt vs _).walk_eq hx, ?_⟩
      rw [Repetition.settle_failed]
      rfl

/-- One letter is no pair, and is matched by the other alternative from the place where the pair was
looked for. -/
theorem generate_backtracks_letter :
    let e : Expr := .choice [.sequence [.any, .any], .any]
    let g : Grammar := ⟨[⟨"letters", e⟩]⟩
    ∃ (m : Machine Unit) (c others : Code) (u : State Unit) (j : ℕ),
      g.generate true = .ok m.program ∧ m.host.NeverFails ∧
      e.HasCode m.program.consts g.ruleIndex? .rule [] c ∧
      (Expr.choice [.any]).HasCode m.program.consts g.ruleIndex? .rule [] others ∧ u.pos = 0 ∧
      (m.activation "a" 0 "letters").exec 0 c [] (.start ()) = (do
        tick m.limits [.failed]
        tick m.limits [.failed]
        (m.activation "a" 0 "letters").exec j others []) u := by
  intro e g
  let consts : List Constant := [.failed, .expectation .anyChar]
  let c : Code := pair ++ [10, 8, 0, 2, 15, 2, 2, 19, 1, 21, 1]
  let m : Machine Unit := ⟨⟨[⟨"letters", c⟩], consts⟩, fun _ _ _ h => (.ok .null, h), {}, 0⟩
  have hg : g.generate true = .ok m.program := by decide +kernel
  have hH : m.host.NeverFails := by
    rintro f x args h ⟨⟩
  have hc : e.compile g.ruleIndex? .rule [] {} = .ok (c, ⟨consts⟩) := rfl
  have hlaw := (generate_backtracks hg hH "a" 0 "letters").choice hc List.prefix_rfl
    steady_sequence
  obtain ⟨first, others, p, hfirst, hothers, hlaw⟩ := hlaw
  obtain ⟨rfl, rfl⟩ := Prod.mk.inj (Except.ok.inj hfirst)
  have hr : ∃ u, (m.activation "a" 0 "letters").exec 0 pair [] (.start ()) = .ok [.failed] u := by
    rw [Activation.exec, read_pair]
    exact ⟨_, rfl⟩
  obtain ⟨u, hr⟩ := hr
  obtain ⟨hpos, j, hj⟩ := hlaw _ _ _ _ hr
  exact ⟨m, c, others, u, j, hg, hH, ⟨_, _, hc, List.prefix_rfl⟩,
    ⟨_, _, hothers, List.prefix_rfl⟩, hpos, hj⟩

/-- Without the condition on what fails there is no such law: where two letters are asked for and there
is one, the next alternative is tried behind it. -/
theorem not_backtracks_letter :
    let g : Grammar := ⟨[⟨"letters", .choice [.bounded .any (some 2) none none, .any]⟩]⟩
    ∃ m : Machine Unit, g.generate true = .ok m.program ∧ m.host.NeverFails ∧
      ¬(m.activation "a" 999 "letters").Backtracks g fun _ => True := by
  intro g
  let two : Code := [0, 0, 15, 2, 2, 19, 1, 21, 2, 14, 15, 6, 0, 4, 13, 2, 7, 0, 1, 15, 2, 2, 19, 1,
    21, 2, 2, 0, 3, 12, 3, 0, 2, 0, 1]
  let c : Code := two ++ [10, 8, 0, 2, 15, 2, 2, 19, 1, 21, 2]
  let consts : List Constant := [.emptyArray, .failed, .expectation .anyChar, .bound (some 2),
    .bound none]
  let m : Machine Unit := ⟨⟨[⟨"letters", c⟩], consts⟩, fun _ _ _ h => (.ok .null, h), {}, 2⟩
  have hg : g.generate true = .ok m.program := by decide +kernel
  have hH : m.host.NeverFails := by
    rintro f x args h ⟨⟩
  refine ⟨m, hg, hH, fun hlaw => ?_⟩
  have hc : (Expr.choice [.bounded .any (some 2) none none, .any]).compile g.ruleIndex? .rule [] {} =
      .ok (c, ⟨consts⟩) := rfl
  obtain ⟨first, others, p, hfirst, -, hlaw⟩ := hlaw.choice hc List.prefix_rfl trivial
  obtain ⟨rfl, rfl⟩ := Prod.mk.inj (Except.ok.inj hfirst)
  have hb : Block.read 0 two = .instr 0 (.push 0) (.branch 2 .any 2 2 (.instr 5 (.acceptN 1) .done)
      (.instr 7 (.fail 2) .done) (.loop 9 15 (.instr 11 .append (.instr 12 (.push 4)
        (.branch 14 .isFull 2 7 (.instr 17 (.push 1) .done)
          (.branch 19 .any 2 2 (.instr 22 (.acceptN 1) .done) (.instr 24 (.fail 2) .done) .done)
          .done)))
        (.instr 26 .pop (.instr 27 (.push 3) (.branch 29 .isShort 3 0
          (.instr 32 .pop (.instr 33 (.push 1) .done)) .done .done))))) := by
    decide +kernel
  have hr : ∃ u, (m.activation "a" 999 "letters").exec 0 two [] (.start ()) = .ok [.failed] u ∧
      u.pos = 1 := by
    rw [Activation.exec, hb]
    exact ⟨_, rfl, rfl⟩
  obtain ⟨u, hr, hone⟩ := hr
  have hzero : u.pos = 0 := (hlaw _ _ _ _ hr).1
  rw [hone] at hzero
  cases hzero

end Grammar
end PegMachine
