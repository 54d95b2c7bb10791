import PegMachine.Proofs.Compile.Errors
import PegMachine.Proofs.Semantics.Program

/-! Where an expression fails, the place in the input is the one where it started. Only a bounded
repetition that has matched, but not often enough, moves on and fails. A sequence goes back, whatever
its elements have done. -/
namespace PegMachine

variable {σ α : Type}

/-- The host never answers with the mark of failure. -/
def Host.NeverFails (H : Host σ) : Prop := ∀ f c args h, (H f c args h).1 ≠ .ok .failed

namespace Walk

variable {w : Walk σ Value} {k : Value → Walk σ Value} {p : ℕ}

/-- Where the walk fails, it ends at place `p`. -/
def FailsAt (p : ℕ) (w : Walk σ Value) : Prop := ∀ s t, w s = .ok .failed t → t.pos = p

/-- Where the walk fails, it ends where it has started. -/
def Restores (w : Walk σ Value) : Prop := ∀ s t, w s = .ok .failed t → t.pos = s.pos

/-- The walk does not fail. -/
def Succeeds (w : Walk σ Value) : Prop := ∀ s t, w s ≠ .ok .failed t

/-- Whatever the walk returns, it does not move. -/
def Stays (w : Walk σ α) : Prop := ∀ s a t, w s = .ok a t → t.pos = s.pos

theorem Succeeds.failsAt (h : Succeeds w) : FailsAt p w := fun s t ht => absurd ht (h s t)

theorem Succeeds.restores (h : Succeeds w) : Restores w := fun s t ht => absurd ht (h s t)

theorem succeeds_pure {v : Value} (hv : v.isFailed = false) : Succeeds (σ := σ) (pure v) := by
  intro s t h
  obtain ⟨rfl, -⟩ := estate_pure_eq_ok.mp h
  cases hv

theorem Succeeds.bind {w : Walk σ α} {k : α → Walk σ Value} (h : ∀ a, Succeeds (k a)) :
    Succeeds (w >>= k) := by
  intro s t ht
  obtain ⟨a, u, -, ht⟩ := estate_bind_eq_ok.mp ht
  exact h a u t ht

theorem FailsAt.bind {w : Walk σ α} {k : α → Walk σ Value} (h : ∀ a, FailsAt p (k a)) :
    FailsAt p (w >>= k) := by
  intro s t ht
  obtain ⟨a, u, -, ht⟩ := estate_bind_eq_ok.mp ht
  exact h a u t ht

theorem failsAt_seek (v : Value) : FailsAt (σ := σ) p (seek p >>= fun _ => pure v) := by
  intro s t ht
  obtain ⟨_, u, hu, ht⟩ := estate_bind_eq_ok.mp ht
  cases hu
  obtain ⟨-, rfl⟩ := estate_pure_eq_ok.mp ht
  rfl

theorem Stays.restores (h : Stays w) : Restores w := fun s t ht => h s .failed t ht

theorem Stays.bind {w : Walk σ α} {k : α → Walk σ Value} (hw : Stays w) (hk : ∀ a, Restores (k a)) :
    Restores (w >>= k) := by
  intro s t ht
  obtain ⟨a, u, hu, ht⟩ := estate_bind_eq_ok.mp ht
  exact (hk a u t ht).trans (hw s a u hu)

theorem stays_pure (a : α) : Stays (σ := σ) (pure a) := by
  intro s b t h
  obtain ⟨-, rfl⟩ := estate_pure_eq_ok.mp h
  rfl

theorem stays_place : Stays (σ := σ) place := by
  intro s p t h
  cases h
  rfl

theorem stays_modify {f : Progress σ → Progress σ} (hf : ∀ s, (f s).pos = s.pos) :
    Stays (modify f : Walk σ PUnit) := by
  intro s a t h
  cases h
  exact hf s

theorem stays_expecting (e : Expectation) : Stays (σ := σ) (expecting e) := by
  intro s v t h
  obtain ⟨_, u, hu, ht⟩ := estate_bind_eq_ok.mp h
  cases hu
  obtain ⟨-, rfl⟩ := estate_pure_eq_ok.mp ht
  change (s.fail e).pos = s.pos
  unfold Progress.fail
  split <;> rfl

/-- What fails at the place where it has started. -/
theorem Restores.of_place {k : ℕ → Walk σ Value} (h : ∀ p, FailsAt p (k p)) :
    Restores (place >>= k) := by
  intro s t ht
  obtain ⟨p, u, hu, ht⟩ := estate_bind_eq_ok.mp ht
  cases hu
  exact h s.pos s t ht

/-- A walk that restores its place, and what is done where it has failed. -/
theorem Restores.orElse {w' : Walk σ Value} (hw : Restores w) (hf : Restores w')
    (hk : ∀ v, v.isFailed = false → Succeeds (k v)) :
    Restores (w >>= fun v => if v.isFailed then w' else k v) := by
  intro s t ht
  obtain ⟨v, u, hu, ht⟩ := estate_bind_eq_ok.mp ht
  rcases v.eq_failed_or with rfl | hv
  · exact (hf u t ht).trans (hw s u hu)
  · rw [hv] at ht
    exact absurd ht (hk v hv u t)

/-- A walk that passes on its failure. -/
theorem Restores.andThen (hw : Restores w) (hk : ∀ v, v.isFailed = false → Succeeds (k v)) :
    Restores (w >>= fun v => if v.isFailed then pure v else k v) := by
  have hpass : (fun v : Value => if v.isFailed then pure v else k v) =
      fun v => if v.isFailed then pure .failed else k v := by
    funext v
    rcases v.eq_failed_or with rfl | hv
    · rfl
    · rw [hv]
      rfl
  rw [hpass]
  exact hw.orElse (stays_pure .failed).restores hk

theorem Restores.silenced (hw : Restores w) : Restores (silenced w) := by
  refine Stays.bind (stays_modify fun _ => rfl) fun _ => ?_
  intro s t ht
  obtain ⟨v, u, hu, ht⟩ := estate_bind_eq_ok.mp ht
  obtain ⟨_, u', hu', ht⟩ := estate_bind_eq_ok.mp ht
  obtain ⟨rfl, rfl⟩ := estate_pure_eq_ok.mp ht
  cases hu'
  exact hw s u hu

section

variable {env : Walk.Env σ} {ls : Labels Value} {code : String}

theorem call_eq (s : Progress σ) :
    let r := env.host ⟨ls.names, code⟩ ⟨env.input, p, s.pos⟩ ls.values s.host
    call env p code ls s = match r.1 with
      | .ok v => .ok v { s with host := r.2 }
      | .error e => .error (.host e) { s with host := r.2 } := by
  intro r
  have hcall : s.call env.host env.input p ⟨ls.names, code⟩ ls.values =
      (r.1, { s with host := r.2 }) := rfl
  unfold call
  rw [estate_get_bind, hcall]
  cases hr : r.1 <;> rfl

/-- A call that returns: the host has answered, and nothing but its state has changed. -/
theorem call_eq_ok {s t : Progress σ} {v : Value} (h : call env p code ls s = .ok v t) :
    t.pos = s.pos ∧ ∃ c, (env.host ⟨ls.names, code⟩ c ls.values s.host).1 = .ok v := by
  rw [call_eq] at h
  cases hr : (env.host ⟨ls.names, code⟩ ⟨env.input, p, s.pos⟩ ls.values s.host).1 with
  | error e =>
    rw [hr] at h
    cases h
  | ok v' =>
    rw [hr] at h
    cases h
    exact ⟨rfl, _, hr⟩

theorem stays_call : Stays (call env p code ls) := fun _ _ _ h => (call_eq_ok h).1

theorem succeeds_call (hH : env.host.NeverFails) : Succeeds (call env p code ls) := by
  intro s t h
  obtain ⟨-, c, hc⟩ := call_eq_ok h
  exact hH _ _ _ _ hc

theorem restores_guard (wanted : Bool) : Restores (Walk.guard env wanted code ls) :=
  stays_place.bind fun _ => stays_call.bind fun _ => (stays_pure _).restores

theorem restores_accept_or {n : ℕ} {b : Bool} {e : Expectation} :
    Restores (if b then accept env n else expecting e) := by
  cases b with
  | true =>
    refine Succeeds.restores ?_
    exact .bind fun p => .bind fun _ => succeeds_pure rfl
  | false => exact (stays_expecting e).restores

theorem restores_one (test : Char → Bool) (e : Expectation) : Restores (one env test e) :=
  stays_place.bind fun _ => restores_accept_or

theorem restores_literal (value : String) (ignoreCase : Bool) :
    Restores (Walk.literal env value ignoreCase) := by
  unfold Walk.literal
  split
  · exact (succeeds_pure rfl).restores
  · refine stays_place.bind fun p => ?_
    split
    · exact restores_accept_or
    · split
      · exact (Succeeds.bind fun _ => succeeds_pure rfl).restores
      · exact (stays_expecting _).restores

/-- What follows the elements of a sequence. -/
theorem failsAt_settle (hH : env.host.NeverFails) (action : Option String) (vs : List Value)
    (r : Option (List Value × Labels Value)) : FailsAt p (settle env p action vs r) := by
  cases r with
  | none => exact failsAt_seek _
  | some r =>
    cases action with
    | none => exact (succeeds_pure rfl).failsAt
    | some code => exact (succeeds_call hH).failsAt

end

section

variable {again : List Value → Walk σ Value} {fuel : ℕ} {vs ws : List Value} {v : Value}
  {s t : Progress σ}

theorem gather_failed : gather again fuel vs .failed = pure vs := by
  cases fuel <;> rfl

theorem gather_matched (hv : v.isFailed = false) :
    gather again (fuel + 1) vs v = again (vs ++ [v]) >>= gather again fuel (vs ++ [v]) := by
  rw [gather, hv]
  rfl

theorem gather_zero (hv : v.isFailed = false) : gather again 0 vs v = throw .fuel := by
  rw [gather, hv]
  rfl

/-- What holds of the first attempt of a repetition, and is passed on from each match to the attempt
after it, holds of the last one. -/
theorem gather_ok {I : List Value → Value → ℕ → Prop} (h : gather again fuel vs v s = .ok ws t)
    (hv : I vs v s.pos) (hI : ∀ vs v s w t, v.isFailed = false → I vs v s.pos →
      again (vs ++ [v]) s = .ok w t → I (vs ++ [v]) w t.pos) : I ws .failed t.pos := by
  induction fuel generalizing vs v s with
  | zero =>
    rcases v.eq_failed_or with rfl | hf
    · rw [gather_failed] at h
      obtain ⟨rfl, rfl⟩ := estate_pure_eq_ok.mp h
      exact hv
    · rw [gather_zero hf] at h
      cases h
  | succ fuel ih =>
    rcases v.eq_failed_or with rfl | hf
    · rw [gather_failed] at h
      obtain ⟨rfl, rfl⟩ := estate_pure_eq_ok.mp h
      exact hv
    · rw [gather_matched hf] at h
      obtain ⟨w, u, hw, h⟩ := estate_bind_eq_ok.mp h
      exact ih h (hI vs v s w u hf hv hw)

/-- A match is gathered. -/
theorem gather_pos (hv : v.isFailed = false) (h : gather again fuel vs v s = .ok ws t) :
    0 < ws.length := by
  have hlast := gather_ok (I := fun us u _ => u.isFailed = false ∨ 0 < us.length) h (.inl hv)
    fun us u s w t _ _ _ => .inr (by simp)
  rcases hlast with hf | hlen
  · cases hf
  · exact hlen

/-- A repetition that is content with one match. -/
theorem Restores.repetition {min : Option UInt32} (hw : Restores w)
    (hm : ∀ n ∈ min, n.toNat < 2) :
    Restores (do
      let v ← w
      let vs ← gather again fuel [] v
      pure (if min.any fun n => vs.length < n.toNat then .failed else .array vs)) := by
  intro s t ht
  obtain ⟨v, u, hu, ht⟩ := estate_bind_eq_ok.mp ht
  obtain ⟨ws, u', hu', ht⟩ := estate_bind_eq_ok.mp ht
  obtain ⟨hend, rfl⟩ := estate_pure_eq_ok.mp ht
  rcases v.eq_failed_or with rfl | hv
  · rw [gather_failed] at hu'
    obtain ⟨-, rfl⟩ := estate_pure_eq_ok.mp hu'
    exact hw s u hu
  · -- with one match there are enough
    have hlen := gather_pos hv hu'
    have henough : (min.any fun n => ws.length < n.toNat) = false := by
      cases min with
      | none => rfl
      | some n =>
        have hn := hm n rfl
        simp
        omega
    rw [henough] at hend
    cases hend

end

end Walk

open Walk

namespace Grammar

variable {g : Grammar} {e : Expr} {es : List Expr}

/-- There is a way down from one expression to another, through parts and into rules, that goes
through no sequence. -/
inductive Reaches (g : Grammar) : Expr → Expr → Prop
  | here (e : Expr) : Reaches g e e
  | part {e d d' : Expr} (he : ∀ es, e ≠ .sequence es) (hd : d ∈ e.children)
      (h : Reaches g d d') : Reaches g e d'
  | rule {name : String} {i : ℕ} {r : Rule} {d : Expr} (hi : g.ruleIndex? name = some i)
      (hr : g.rules[i]? = some r) (h : Reaches g r.body d) : Reaches g (.rule name) d

/-- No bounded repetition that asks for two matches or more can be reached through no sequence. -/
def Steady (g : Grammar) (e : Expr) : Prop :=
  ∀ d n max delimiter, g.Reaches e (.bounded d (some n) max delimiter) → n.toNat < 2

theorem Steady.part (h : g.Steady e) (he : ∀ es, e ≠ .sequence es) {d : Expr}
    (hd : d ∈ e.children) : g.Steady d :=
  fun d' n max delimiter hr => h d' n max delimiter (.part he hd hr)

theorem steady_sequence : g.Steady (.sequence es) := by
  intro d n max delimiter h
  cases h with
  | part he => exact absurd rfl (he es)

theorem Steady.body {name : String} {i : ℕ} {r : Rule} (h : g.Steady (.rule name))
    (hi : g.ruleIndex? name = some i) (hr : g.rules[i]? = some r) : g.Steady r.body :=
  fun d' n max delimiter hd => h d' n max delimiter (.rule hi hr hd)

end Grammar

section

variable {g : Grammar} {env : Walk.Env σ} {fuel : ℕ} {wrule : String → Walk σ Value} {e : Expr}
  {es : List Expr} {ls : Labels Value}

theorem restores_walkChoice (hes : ∀ e ∈ es, ∀ ls, Restores (e.walk env fuel wrule ls)) :
    Restores (walkChoice env fuel wrule es) := by
  induction es with
  | nil =>
    rw [walkChoice]
    exact (stays_pure _).restores
  | cons e es ih =>
    rw [walkChoice]
    have he := hes e List.mem_cons_self []
    exact he.orElse (ih fun d hd => hes d (List.mem_cons_of_mem _ hd)) fun v hv => succeeds_pure hv

/-- The elements of a sequence may fail wherever they like. -/
theorem restores_sequence (hH : env.host.NeverFails) (action : Option String) :
    Restores (do
      let p ← place
      walkElements env fuel wrule es ls >>= settle env p action []) :=
  .of_place fun _ => .bind fun r => failsAt_settle hH action [] r

theorem Expr.restores (hH : env.host.NeverFails)
    (hrule : ∀ name, g.Steady (.rule name) → Restores (wrule name)) (e : Expr) (he : g.Steady e)
    (ls : Labels Value) : Restores (e.walk env fuel wrule ls) := by
  induction e generalizing ls with
  | named name e ih =>
    rw [Expr.walk]
    have hinner := ih (he.part (by simp) List.mem_cons_self) ls
    exact hinner.silenced.orElse (stays_expecting _).restores fun v hv => succeeds_pure hv
  | choice es ih =>
    rw [Expr.walk]
    exact restores_walkChoice fun e hd => ih e hd (he.part (by simp) hd)
  | action e code ih =>
    cases hl : e.hasElements with
    | true =>
      obtain ⟨d, es, rfl⟩ := Expr.eq_sequence hl
      rw [Expr.walk_actionOfElements]
      exact restores_sequence hH _
    | false =>
      rw [Expr.walk_action hl]
      have hinner := ih (he.part (by simp) List.mem_cons_self) []
      refine stays_place.bind fun p => hinner.andThen fun v hv => ?_
      exact succeeds_call hH
  | sequence es =>
    rw [Expr.walk_sequence]
    exact restores_sequence hH _
  | labeled label e ih =>
    rw [Expr.walk]
    exact ih (he.part (by simp) List.mem_cons_self) []
  | text e ih =>
    rw [Expr.walk]
    have hinner := ih (he.part (by simp) List.mem_cons_self) []
    refine stays_place.bind fun p => hinner.andThen fun v hv => ?_
    exact .bind fun q => succeeds_pure rfl
  | followedBy e ih =>
    rw [Expr.walk]
    have hinner := ih (he.part (by simp) List.mem_cons_self) []
    refine stays_place.bind fun p => hinner.silenced.orElse (stays_pure _).restores fun v hv => ?_
    exact .bind fun _ => succeeds_pure rfl
  | notFollowedBy e =>
    -- here failure means that the operand has matched, and the place is gone back to
    rw [Expr.walk]
    refine .of_place fun p => .bind fun v => ?_
    split
    · exact (succeeds_pure rfl).failsAt
    · exact failsAt_seek _
  | guard code | guardNot code =>
    rw [Expr.walk]
    exact restores_guard _
  | optional e ih =>
    rw [Expr.walk]
    refine Succeeds.restores (.bind fun v => succeeds_pure ?_)
    cases hv : v.isFailed with
    | true => rfl
    | false => exact hv
  | zeroOrMore e ih =>
    rw [Expr.walk]
    exact Succeeds.restores (.bind fun v => .bind fun vs => succeeds_pure rfl)
  | oneOrMore e ih =>
    rw [Expr.walk]
    have hinner := ih (he.part (by simp) List.mem_cons_self) []
    exact hinner.andThen fun v hv => .bind fun vs => succeeds_pure rfl
  | bounded e min max d ih =>
    rw [Expr.walk]
    have hinner := ih (he.part (by simp) List.mem_cons_self) []
    refine hinner.repetition fun n hn => ?_
    obtain rfl := Option.mem_def.mp hn
    exact he _ _ _ _ (.here _)
  | rule name =>
    rw [Expr.walk]
    exact hrule name he
  | literal value ignoreCase =>
    rw [Expr.walk]
    exact restores_literal value ignoreCase
  | charClass k text | any =>
    rw [Expr.walk]
    exact restores_one _ _

end

namespace Grammar

variable {g : Grammar} {env : Walk.Env σ}

theorem restores_ruleWalk {fuel depth : ℕ} {name : String}
    (h : ∀ i r, g.rules[i]? = some r → g.Steady r.body → Restores (g.walk env fuel depth i))
    (hs : g.Steady (.rule name)) : Restores (g.ruleWalk env fuel depth name) := by
  unfold ruleWalk
  cases hi : g.ruleIndex? name with
  | none =>
    intro s t ht
    cases ht
  | some i =>
    have hr := List.getElem?_eq_getElem (ruleIndex?_lt hi)
    exact h i _ hr (hs.body hi hr)

/-- Rules restore their place to whatever depth they call one another. -/
theorem restores_walk (hH : env.host.NeverFails) (fuel depth i : ℕ) (r : Rule)
    (hr : g.rules[i]? = some r) (hs : g.Steady r.body) : Restores (g.walk env fuel depth i) := by
  induction depth generalizing i r with
  | zero =>
    rw [Grammar.walk, hr]
    intro s t h
    cases h
  | succ depth ih =>
    rw [walk_succ _ _ _ hr]
    exact r.body.restores hH (fun name hname => restores_ruleWalk ih hname) hs []

theorem restores_expr (hH : env.host.NeverFails) (fuel depth : ℕ) {e : Expr} (he : g.Steady e)
    (ls : Labels Value) : Restores (e.walk env fuel (g.ruleWalk env fuel depth) ls) :=
  e.restores hH (fun _ hn => restores_ruleWalk (restores_walk hH fuel depth) hn) he ls

end Grammar

theorem Scope.Inside.reads {sp : ℤ} {s : Scope} {S : Stack} (hs : s.Inside sp)
    (hS : sp < S.length) : ∃ ls, s.Reads sp S ls := by
  induction s with
  | nil => exact ⟨[], .nil⟩
  | cons b s ih =>
    obtain ⟨ls, hls⟩ := ih fun x hx => hs x (List.mem_cons_of_mem _ hx)
    have hb := hs b List.mem_cons_self
    have hlt : (sp - b.2).toNat < S.length := by omega
    exact ⟨(b.1, S[(sp - b.2).toNat]) :: ls, .cons ⟨rfl, hb.2, List.getElem?_eq_getElem hlt⟩ hls⟩

section

variable {A : Activation σ} {c : Code} {S S' : Stack} {w : Walk σ Value} {ip : ℕ} {v : Value}
  {t t' : State σ}

/-- A run that has come to its end tells how the walk ends. -/
theorem Computes.exists_walk_eq (hc : Computes A c S w) (hr : A.exec ip c S t = .ok S' t') :
    ∃ v, S' = v :: S ∧ w t.toProgress = .ok v t'.toProgress := by
  have hm := hc ip t
  rw [hr] at hm
  generalize w t.toProgress = x at hm ⊢
  cases hm with
  | ok hS => exact ⟨_, hS, rfl⟩

theorem Computes.walk_eq (hc : Computes A c S w) (hr : A.exec ip c S t = .ok (v :: S') t') :
    w t.toProgress = .ok v t'.toProgress := by
  obtain ⟨x, hS, hw⟩ := hc.exists_walk_eq hr
  obtain ⟨rfl, -⟩ := List.cons.inj hS
  exact hw

theorem Computes.pos_eq (hc : Computes A c S w) (hw : Restores w)
    (hr : A.exec ip c S t = .ok (.failed :: S') t') : t'.pos = t.pos :=
  hw _ _ (hc.walk_eq hr)

end

namespace Grammar

variable {g : Grammar} {m : Machine σ} {verify : Bool} {e : Expr} {ctx : Context} {s : Scope}
  {c : Code} {S S' : Stack} {t t' : State σ}

/-- Code of an expression that fails has gone back to the place where it was started: that of a
sequence always, and that of another expression if no bounded repetition that asks for two matches or
more can be reached through no sequence. The labels in scope lie on the stack. -/
theorem generate_rollback (hg : g.generate verify = .ok m.program) (hH : m.host.NeverFails)
    (hc : e.HasCode m.program.consts g.ruleIndex? ctx s c) (hs : s.Inside ctx.sp)
    (hS : ctx.sp < S.length)
    (he : (∃ es, e = .sequence es) ∨ ctx.action = none ∧ g.Steady e) (input : String)
    (depth ip : ℕ) (name : String)
    (hr : (m.activation input depth name).exec ip c S t = .ok (.failed :: S') t') :
    t'.pos = t.pos := by
  have hmakes := generate_makes hg
  obtain ⟨ls, hls⟩ := hs.reads hS
  have hsound := hmakes.expr_sound input depth name
  rcases he with ⟨es, rfl⟩ | ⟨ha, he⟩
  · cases hc.shape with
    | sequence hd hb =>
      have hseq := Computes.sequence hmakes.consts (fun d _ => hsound d) (hd.has hmakes.consts) hb hls
      exact hseq.pos_eq (restores_sequence hH _) hr
  · have hcode := hsound e ctx s c S ls ha hc.shape hls
    exact hcode.pos_eq (restores_expr hH m.fuel depth he ls) hr

/-- Two letters, in a program whose first two constants are the mark of failure and what is expected of
a letter. -/
def pair : Code := [1, 15, 2, 2, 19, 1, 21, 1, 11, 18, 4, 15, 2, 2, 19, 1, 21, 1, 11, 3, 5, 7, 2, 5,
  4, 2, 3, 0, 0, 2, 3, 0, 0]

theorem read_pair : Block.read 0 pair = .instr 0 .pushPos (.branch 1 .any 2 2
    (.instr 4 (.acceptN 1) .done) (.instr 6 (.fail 1) .done) (.branch 8 .isMatched 18 4
      (.branch 11 .any 2 2 (.instr 14 (.acceptN 1) .done) (.instr 16 (.fail 1) .done)
        (.branch 18 .isMatched 3 5 (.instr 21 (.wrap 2) (.instr 23 .nip .done))
          (.instr 24 (.popN 2) (.instr 26 .popPos (.instr 27 (.push 0) .done))) .done))
      (.instr 29 .pop (.instr 30 .popPos (.instr 31 (.push 0) .done))) .done)) := by
  decide +kernel

/-- The second of two letters is missing, and the first is given back. -/
theorem generate_rollback_pair :
    let g : Grammar := ⟨[⟨"pair", .sequence [.any, .any]⟩]⟩
    ∃ (m : Machine Unit) (t : State Unit), g.generate true = .ok m.program ∧ m.host.NeverFails ∧
      (Expr.sequence [.any, .any]).HasCode m.program.consts g.ruleIndex? .rule [] pair ∧
      (m.activation "a" 0 "pair").exec 0 pair [] (.start ()) = .ok [.failed] t ∧ t.pos = 0 := by
  intro g
  let consts : List Constant := [.failed, .expectation .anyChar]
  let m : Machine Unit := ⟨⟨[⟨"pair", pair⟩], consts⟩, fun _ _ _ h => (.ok .null, h), {}, 0⟩
  have hg : g.generate true = .ok m.program := by decide +kernel
  have hH : m.host.NeverFails := by
    rintro f x args h ⟨⟩
  have hc : (Expr.sequence [.any, .any]).HasCode consts g.ruleIndex? .rule [] pair :=
    ⟨{}, ⟨consts⟩, rfl, List.prefix_rfl⟩
  have hr : ∃ t, (m.activation "a" 0 "pair").exec 0 pair [] (.start ()) = .ok [.failed] t := by
    rw [Activation.exec, read_pair]
    exact ⟨_, rfl⟩
  obtain ⟨t, hr⟩ := hr
  have hpos := generate_rollback hg hH hc .nil (by decide) (.inl ⟨_, rfl⟩) "a" 0 0 "pair" hr
  exact ⟨m, t, hg, hH, hc, hr, hpos⟩

end Grammar
end PegMachine
