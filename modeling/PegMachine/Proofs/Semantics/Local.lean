import PegMachine.Proofs.Semantics.Rollback

/-! If the answers of the host depend on nothing but the calls, then what a walk returns and where it
ends depends on nothing but the place where it starts: neither on what has been reported, nor on what
the host remembers. -/
namespace PegMachine

variable {σ α β : Type}

/-- The answer to a call does not depend on the state of the host. -/
def Host.Pure (H : Host σ) : Prop := ∀ f c args h h', (H f c args h).1 = (H f c args h').1

namespace Walk

/-- Where the walk returns, it returns the same and ends at the same place from any other state with
the same place. -/
def Local (w : Walk σ α) : Prop :=
  ∀ s s' a t, s'.pos = s.pos → w s = .ok a t → ∃ t', w s' = .ok a t' ∧ t'.pos = t.pos

variable {w : Walk σ Value}

theorem local_pure (a : α) : Local (σ := σ) (pure a) := by
  intro s s' b t hs h
  obtain ⟨rfl, rfl⟩ := estate_pure_eq_ok.mp h
  exact ⟨s', rfl, hs⟩

theorem local_throw (x : Stop) : Local (σ := σ) (α := α) (throw x) := by
  intro s s' a t hs h
  cases h

theorem Local.bind {w : Walk σ α} {k : α → Walk σ β} (hw : Local w) (hk : ∀ a, Local (k a)) :
    Local (w >>= k) := by
  intro s s' b t hs h
  obtain ⟨a, u, hu, ht⟩ := estate_bind_eq_ok.mp h
  obtain ⟨u', hu', hpos⟩ := hw s s' a u hs hu
  obtain ⟨t', ht', hpos'⟩ := hk a u u' b t hpos ht
  exact ⟨t', estate_bind_eq_ok.mpr ⟨a, u', hu', ht'⟩, hpos'⟩

theorem Local.ite {b : Bool} {w w' : Walk σ α} (hw : Local w) (hw' : Local w') :
    Local (if b then w else w') := by
  cases b with
  | true => exact hw
  | false => exact hw'

theorem local_modify {f : Progress σ → Progress σ}
    (hf : ∀ s s', s'.pos = s.pos → (f s').pos = (f s).pos) : Local (modify f : Walk σ PUnit) := by
  intro s s' a t hs h
  cases h
  exact ⟨f s', rfl, hf s s' hs⟩

theorem local_place : Local (σ := σ) place := by
  intro s s' p t hs h
  cases h
  refine ⟨s', ?_, hs⟩
  rw [← hs]
  rfl

theorem local_seek (p : ℕ) : Local (σ := σ) (seek p) := local_modify fun _ _ _ => rfl

theorem local_expecting (e : Expectation) : Local (σ := σ) (expecting e) := by
  have hfail : ∀ s : Progress σ, (s.fail e).pos = s.pos := by
    intro s
    unfold Progress.fail
    split <;> rfl
  refine .bind (local_modify fun s s' hs => ?_) fun _ => local_pure _
  rw [hfail, hfail, hs]

theorem Local.silenced (hw : Local w) : Local (silenced w) := by
  refine .bind (local_modify fun _ _ hs => hs) fun _ => hw.bind fun v => ?_
  exact .bind (local_modify fun _ _ hs => hs) fun _ => local_pure v

/-- What goes back to where it has started, and fails. -/
theorem local_back (p : ℕ) : Local (σ := σ) (seek p >>= fun _ => pure Value.failed) :=
  (local_seek p).bind fun _ => local_pure _

theorem Local.gather {again : List Value → Walk σ Value} (h : ∀ vs, Local (again vs)) (fuel : ℕ)
    (vs : List Value) (v : Value) : Local (gather again fuel vs v) := by
  induction fuel generalizing vs v with
  | zero =>
    rcases v.eq_failed_or with rfl | hv
    · rw [gather_failed]
      exact local_pure vs
    · rw [gather_zero hv]
      exact local_throw .fuel
  | succ fuel ih =>
    rcases v.eq_failed_or with rfl | hv
    · rw [gather_failed]
      exact local_pure vs
    · rw [gather_matched hv]
      exact (h _).bind fun w => ih _ w

section

variable {env : Walk.Env σ} {ls : Labels Value} {code : String}

theorem local_accept (n : ℕ) : Local (accept env n) :=
  local_place.bind fun _ => (local_seek _).bind fun _ => local_pure _

theorem local_one (test : Char → Bool) (e : Expectation) : Local (one env test e) :=
  local_place.bind fun _ => (local_accept 1).ite (local_expecting e)

theorem local_literal (value : String) (ignoreCase : Bool) :
    Local (Walk.literal env value ignoreCase) := by
  unfold Walk.literal
  refine (local_pure _).ite (local_place.bind fun p => .ite ?_ ?_)
  · exact (local_accept _).ite (local_expecting _)
  · exact ((local_seek _).bind fun _ => local_pure _).ite (local_expecting _)

variable (hH : env.host.Pure)

include hH

/-- A call does not depend on what the host remembers. -/
theorem local_call (p : ℕ) : Local (call env p code ls) := by
  intro s s' v t hs h
  have hanswer := hH ⟨ls.names, code⟩ ⟨env.input, p, s.pos⟩ ls.values s.host s'.host
  rw [call_eq] at h ⊢
  rw [hs, ← hanswer]
  cases hv : (env.host ⟨ls.names, code⟩ ⟨env.input, p, s.pos⟩ ls.values s.host).1 with
  | error e =>
    rw [hv] at h
    cases h
  | ok v' =>
    rw [hv] at h
    cases h
    exact ⟨_, rfl, rfl⟩

theorem local_guard (wanted : Bool) : Local (Walk.guard env wanted code ls) :=
  local_place.bind fun p => (local_call hH p).bind fun _ => local_pure _

/-- What follows the elements of a sequence. -/
theorem local_settle (p : ℕ) (action : Option String) (vs : List Value)
    (r : Option (List Value × Labels Value)) : Local (settle env p action vs r) := by
  rcases r with _ | ⟨ws, ls⟩
  · exact local_back p
  · cases action with
    | none => exact local_pure _
    | some code => exact local_call hH p

end

end Walk

open Walk

section

variable {env : Walk.Env σ} {fuel : ℕ} {wrule : String → Walk σ Value} {es : List Expr}

theorem local_walkChoice (hes : ∀ e ∈ es, ∀ ls, Local (e.walk env fuel wrule ls)) :
    Local (walkChoice env fuel wrule es) := by
  induction es with
  | nil =>
    rw [walkChoice]
    exact local_pure _
  | cons e es ih =>
    rw [walkChoice]
    refine (hes e List.mem_cons_self []).bind fun v => ?_
    exact (ih fun d hd => hes d (List.mem_cons_of_mem _ hd)).ite (local_pure v)

theorem local_walkElements (hes : ∀ e ∈ es, ∀ ls, Local (e.walk env fuel wrule ls))
    (ls : Labels Value) : Local (walkElements env fuel wrule es ls) := by
  induction es generalizing ls with
  | nil =>
    rw [walkElements]
    exact local_pure _
  | cons e es ih =>
    rw [walkElements]
    refine (hes e List.mem_cons_self ls).bind fun v => (local_pure _).ite ?_
    refine (ih (fun d hd => hes d (List.mem_cons_of_mem _ hd)) _).bind fun r => local_pure _

theorem local_walkNext {operand : Walk σ Value} {d : Option Expr} (ho : Local operand)
    (hd : ∀ e ∈ d, ∀ ls, Local (e.walk env fuel wrule ls)) :
    Local (walkNext env fuel wrule operand d) := by
  cases d with
  | none =>
    rw [walkNext]
    exact ho
  | some e =>
    rw [walkNext]
    refine local_place.bind fun p => (hd e rfl []).bind fun v => (local_pure v).ite ?_
    exact ho.bind fun w => (local_back p).ite (local_pure w)

/-- The walk of an expression is local, if those of the rules are. -/
theorem Expr.local_walk (hH : env.host.Pure) (hrule : ∀ name, Local (wrule name)) (e : Expr)
    (ls : Labels Value) : Local (e.walk env fuel wrule ls) := by
  -- an action reaches past the sequence below it, to its elements
  induction e using Expr.inner_induction generalizing ls with
  | inner e hp hpp =>
    cases e with
    | named name e =>
      rw [Expr.walk]
      refine (hp e List.mem_cons_self ls).silenced.bind fun v => ?_
      exact (local_expecting _).ite (local_pure v)
    | choice es =>
      rw [Expr.walk]
      exact local_walkChoice hp
    | action e code =>
      by_cases hl : e.hasElements = true
      · obtain ⟨d, es, rfl⟩ := Expr.eq_sequence hl
        rw [Expr.walk_actionOfElements]
        refine local_place.bind fun p => .bind ?_ fun r => local_settle hH p _ [] r
        exact local_walkElements (hpp _ List.mem_cons_self) []
      · rw [Expr.walk_action (by simpa using hl)]
        refine local_place.bind fun p => (hp e List.mem_cons_self []).bind fun v => ?_
        exact (local_pure v).ite (local_call hH p)
    | sequence es =>
      rw [Expr.walk_sequence]
      refine local_place.bind fun p => .bind ?_ fun r => local_settle hH p _ [] r
      exact local_walkElements hp ls
    | labeled label e =>
      rw [Expr.walk]
      exact hp e List.mem_cons_self []
    | text e =>
      rw [Expr.walk]
      refine local_place.bind fun p => (hp e List.mem_cons_self []).bind fun v => ?_
      exact (local_pure v).ite (local_place.bind fun q => local_pure _)
    | followedBy e =>
      rw [Expr.walk]
      refine local_place.bind fun p => (hp e List.mem_cons_self []).silenced.bind fun v => ?_
      exact (local_pure _).ite ((local_seek p).bind fun _ => local_pure _)
    | notFollowedBy e =>
      rw [Expr.walk]
      refine local_place.bind fun p => (hp e List.mem_cons_self []).silenced.bind fun v => ?_
      exact (local_pure _).ite (local_back p)
    | guard code | guardNot code =>
      rw [Expr.walk]
      exact local_guard hH _
    | optional e =>
      rw [Expr.walk]
      exact (hp e List.mem_cons_self []).bind fun v => local_pure _
    | zeroOrMore e =>
      have hinner := hp e List.mem_cons_self []
      rw [Expr.walk]
      exact hinner.bind fun v => (Local.gather (fun _ => hinner) _ _ v).bind fun vs => local_pure _
    | oneOrMore e =>
      have hinner := hp e List.mem_cons_self []
      rw [Expr.walk]
      refine hinner.bind fun v => (local_pure v).ite ?_
      exact (Local.gather (fun _ => hinner) _ _ v).bind fun vs => local_pure _
    | bounded e min max d =>
      have hinner := hp e List.mem_cons_self []
      have hdelimiter := fun d' hd =>
        hp d' (List.mem_cons_of_mem _ (Option.mem_toList.mpr hd))
      rw [Expr.walk]
      refine hinner.bind fun v => .bind (.gather (fun vs => ?_) _ _ v) fun vs => local_pure _
      exact (local_pure _).ite (local_walkNext hinner hdelimiter)
    | rule name =>
      rw [Expr.walk]
      exact hrule name
    | literal value ignoreCase =>
      rw [Expr.walk]
      exact local_literal value ignoreCase
    | charClass k text | any =>
      rw [Expr.walk]
      exact local_one _ _

end

namespace Grammar

variable {g : Grammar} {env : Walk.Env σ}

theorem local_ruleWalk {fuel depth : ℕ} (h : ∀ i, Local (g.walk env fuel depth i)) (name : String) :
    Local (g.ruleWalk env fuel depth name) := by
  unfold ruleWalk
  cases g.ruleIndex? name with
  | none => exact local_throw _
  | some i => exact h i

/-- Rules are walked locally to whatever depth they call one another. -/
theorem local_walk (hH : env.host.Pure) (fuel depth i : ℕ) : Local (g.walk env fuel depth i) := by
  induction depth generalizing i with
  | zero =>
    unfold Grammar.walk
    cases g.rules[i]? with
    | none => exact local_throw _
    | some r => exact local_throw _
  | succ depth ih =>
    cases hr : g.rules[i]? with
    | none =>
      unfold Grammar.walk
      rw [hr]
      exact local_throw _
    | some r =>
      rw [walk_succ _ _ _ hr]
      exact r.body.local_walk hH (local_ruleWalk ih) []

end Grammar
end PegMachine
