import PegMachine.Proofs.Semantics.Nullable
import PegMachine.Proofs.Text.Fold

/-! Walks go on. None ends before the place where it has started, and one that matches there without
having moved shows that its expression is nullable. So a repetition of what is not nullable comes to
an end, as each round leaves less of the input; one with an upper bound does so in any case. -/
namespace PegMachine

variable {σ α β : Type}

namespace Walk

/-- How a part of a walk ends: with a result and a place for which `Q`, or because something stops it,
but not because a loop has more passes than were granted. -/
def Lands (Q : α → ℕ → Prop) : EStateM.Result Stop (Progress σ) α → Prop
  | .ok a t => Q a t.pos
  | .error x _ => x ≠ .fuel

/-- From any state at place `p` the walk ends so. -/
def From (p : ℕ) (w : Walk σ α) (Q : α → ℕ → Prop) : Prop :=
  ∀ s : Progress σ, s.pos = p → Lands Q (w s)

namespace From

variable {p q : ℕ} {a : α} {w : Walk σ α} {Q : α → ℕ → Prop} {R : β → ℕ → Prop}

theorem pure (h : Q a p) : From (σ := σ) p (pure a) Q := by
  rintro s rfl
  exact h

theorem throw {x : Stop} (hx : x ≠ .fuel) : From (σ := σ) p (throw x) Q := fun _ _ => hx

theorem bind {k : α → Walk σ β} (hw : From p w Q) (hk : ∀ a q, Q a q → From q (k a) R) :
    From p (w >>= k) R := by
  intro s hs
  change Lands R (EStateM.bind w k s)
  have hland := hw s hs
  unfold EStateM.bind
  cases hr : w s with
  | ok a t =>
    rw [hr] at hland
    exact hk a t.pos hland t rfl
  | error x t =>
    rw [hr] at hland
    exact hland

theorem mono {Q' : α → ℕ → Prop} (hw : From p w Q) (hQ : ∀ a q, Q a q → Q' a q) : From p w Q' := by
  intro s hs
  have hland := hw s hs
  cases hr : w s with
  | ok a t =>
    rw [hr] at hland
    exact hQ a t.pos hland
  | error x t =>
    rw [hr] at hland
    exact hland

theorem place {k : ℕ → Walk σ β} (hk : From p (k p) R) : From p (place >>= k) R := by
  rintro s rfl
  exact hk s rfl

theorem seek {w : Walk σ β} (hw : From q w R) : From p (seek q >>= fun _ => w) R := by
  intro s _
  exact hw { s with pos := q } rfl

theorem silenced {w : Walk σ Value} {Q : Value → ℕ → Prop} (hw : From p w Q) :
    From p (silenced w) Q := by
  intro s hs
  refine From.bind hw (fun v q hv => ?_) { s with silence := s.silence + 1 } hs
  rintro t rfl
  exact hv

theorem expecting (e : Expectation) :
    From (σ := σ) p (expecting e) fun v q => v = .failed ∧ q = p := by
  rintro s rfl
  change Value.failed = .failed ∧ (s.fail e).pos = s.pos
  unfold Progress.fail
  split <;> exact ⟨rfl, rfl⟩

variable {env : Env σ}

theorem accept (n : ℕ) :
    From p (accept env n) fun _ q => q = min (p + n) env.input.size := by
  rintro s rfl
  rfl

theorem call (reported : ℕ) (code : String) (ls : Labels Value) :
    From p (call env reported code ls) fun _ q => q = p := by
  rintro s rfl
  rcases hr : env.host ⟨ls.names, code⟩ ⟨env.input, reported, s.pos⟩ ls.values s.host with ⟨answer, h⟩
  unfold Walk.call
  simp only [estate_get_bind, Progress.call, hr]
  cases answer with
  | ok v => exact rfl
  | error e =>
    intro hx
    cases hx

end From

/-- Where an attempt that started at place `p` may leave the input with the value `v`: not before `p`,
and beyond it if it matches, or else `P`. -/
structure Onward (n p : ℕ) (P : Prop) (v : Value) (q : ℕ) : Prop where
  le : p ≤ q
  inside : q ≤ n
  stays (hv : v.isFailed = false) (hq : q = p) : P

/-- From wherever it starts, the walk ends and goes on in this way. -/
def Advances (n : ℕ) (P : Prop) (w : Walk σ Value) : Prop :=
  ∀ p ≤ n, From p w (Onward n p P)

namespace Onward

variable {n p q q' : ℕ} {P P' : Prop} {u v : Value}

theorem failed (hp : p ≤ q) (hq : q ≤ n) : Onward n p P .failed q := by
  refine ⟨hp, hq, fun hv => ?_⟩
  cases hv

theorem moved (hp : p < q) (hq : q ≤ n) : Onward n p P v q :=
  ⟨hp.le, hq, fun _ h => absurd h hp.ne'⟩

theorem trans (hp : p ≤ q) (h : Onward n q P v q') : Onward n p P v q' := by
  refine ⟨hp.trans h.le, h.inside, fun hv hq => h.stays hv ?_⟩
  have := h.le
  omega

theorem mono (h : Onward n p P v q) (hP : P → P') : Onward n p P' v q :=
  ⟨h.le, h.inside, fun hv hq => hP (h.stays hv hq)⟩

/-- Another value in place of one that matches. -/
theorem replace (h : Onward n p P v q) (hv : v.isFailed = false) (u : Value) : Onward n p P u q :=
  ⟨h.le, h.inside, fun _ hq => h.stays hv hq⟩

/-- Nothing is claimed of a match that need not move. -/
theorem any (h : Onward n p P v q) (hP : P') (u : Value) : Onward n p P' u q :=
  ⟨h.le, h.inside, fun _ _ => hP⟩

end Onward

theorem Advances.mono {n : ℕ} {P P' : Prop} {w : Walk σ Value} (hw : Advances n P w) (hP : P → P') :
    Advances n P' w :=
  fun p hp => (hw p hp).mono fun _ _ h => h.mono hP

/-- Where each round leaves less of `left` than the last one, and there are passes for what is left, the
rounds come to an end. -/
theorem From.gather {again : List Value → Walk σ Value} {n p fuel : ℕ} {vs : List Value} {v : Value}
    (left : List Value → ℕ → ℕ)
    (ha : ∀ vs v p, p ≤ n → From p (again (vs ++ [v])) fun w q =>
      p ≤ q ∧ q ≤ n ∧ (w.isFailed = false → left (vs ++ [v]) q < left vs p))
    (hp : p ≤ n) (hf : v.isFailed = false → left vs p < fuel) :
    From p (gather again fuel vs v) fun ws q => p ≤ q ∧ q ≤ n ∧ (v.isFailed = true → ws = vs) := by
  induction fuel generalizing vs v p with
  | zero =>
    rcases v.eq_failed_or with rfl | hv
    · rw [gather_failed]
      exact .pure ⟨le_rfl, hp, fun _ => rfl⟩
    · exact absurd (hf hv) (Nat.not_lt_zero _)
  | succ fuel ih =>
    rcases v.eq_failed_or with rfl | hv
    · rw [gather_failed]
      exact .pure ⟨le_rfl, hp, fun _ => rfl⟩
    · have hlt := hf hv
      rw [gather_matched hv]
      apply From.bind (ha vs v p hp)
      rintro w q ⟨hle, hq, hleft⟩
      refine (ih hq fun hw => ?_).mono ?_
      · have := hleft hw
        omega
      · rintro ws q' ⟨hle', hq', -⟩
        exact ⟨hle.trans hle', hq', fun h => absurd h (by simp [hv])⟩

end Walk

open Walk

section

variable {g : Grammar} {env : Walk.Env σ} {n fuel : ℕ} {wrule : String → Walk σ Value}
  {e : Expr} {es : List Expr} {r : Repetition}

theorem advances_walkChoice
    (hes : ∀ e ∈ es, ∀ ls, Advances n (g.Nullable e) (e.walk env fuel wrule ls)) :
    Advances n (∃ e ∈ es, g.Nullable e) (walkChoice env fuel wrule es) := by
  induction es with
  | nil =>
    intro p hp
    rw [walkChoice]
    exact .pure (.failed le_rfl hp)
  | cons e es ih =>
    intro p hp
    rw [walkChoice]
    apply From.bind (hes e List.mem_cons_self [] p hp)
    intro v q hv
    cases hf : v.isFailed with
    | true =>
      have hrest := ih (fun d hd => hes d (List.mem_cons_of_mem _ hd)) q hv.inside
      refine hrest.mono fun w q' hw => (Onward.trans hv.le hw).mono ?_
      rintro ⟨d, hd, hn⟩
      exact ⟨d, List.mem_cons_of_mem _ hd, hn⟩
    | false => exact .pure (hv.mono fun hn => ⟨e, List.mem_cons_self, hn⟩)

theorem from_walkElements
    (hes : ∀ e ∈ es, ∀ ls, Advances n (g.Nullable e) (e.walk env fuel wrule ls)) {p : ℕ}
    (hp : p ≤ n) (ls : Labels Value) :
    From p (walkElements env fuel wrule es ls) fun r q =>
      p ≤ q ∧ q ≤ n ∧ (r.isSome → q = p → ∀ e ∈ es, g.Nullable e) := by
  induction es generalizing p ls with
  | nil =>
    rw [walkElements]
    refine .pure ⟨le_rfl, hp, fun _ _ e he => ?_⟩
    cases he
  | cons e es ih =>
    rw [walkElements]
    apply From.bind (hes e List.mem_cons_self ls p hp)
    intro v q hv
    cases hf : v.isFailed with
    | true => exact .pure ⟨hv.le, hv.inside, fun h => absurd h (by simp)⟩
    | false =>
      have hrest := ih (fun d hd => hes d (List.mem_cons_of_mem _ hd)) hv.inside (e.bind v ls)
      apply From.bind hrest
      rintro r q' ⟨hle, hq', hnull⟩
      refine .pure ⟨hv.le.trans hle, hq', fun hr hp' => ?_⟩
      -- no element has moved
      have hq : q = p := le_antisymm (hle.trans hp'.le) hv.le
      have hes := hnull (by simpa using hr) (hp'.trans hq.symm)
      rintro d (_ | ⟨_, hd⟩)
      · exact hv.stays hf hq
      · exact hes d hd

theorem advances_sequence
    (hes : ∀ e ∈ es, ∀ ls, Advances n (g.Nullable e) (e.walk env fuel wrule ls))
    (action : Option String) (ls : Labels Value) :
    Advances n (∀ e ∈ es, g.Nullable e) (do
      let p ← place
      walkElements env fuel wrule es ls >>= settle env p action []) := by
  intro p hp
  apply From.place
  apply From.bind (from_walkElements hes hp ls)
  rintro r q ⟨hle, hq, hnull⟩
  cases r with
  | none => exact .seek (.pure (.failed le_rfl hp))
  | some r =>
    have honward : ∀ v, Onward n p (∀ e ∈ es, g.Nullable e) v q :=
      fun v => ⟨hle, hq, fun _ => hnull rfl⟩
    cases action with
    | none => exact .pure (honward _)
    | some code =>
      apply (From.call p code r.2).mono
      rintro v q' rfl
      exact honward v

theorem advances_walkNext {d : Option Expr} {w : Walk σ Value} {P : Prop}
    (hd : ∀ e ∈ d, ∀ ls, Advances n (g.Nullable e) (e.walk env fuel wrule ls))
    (hw : Advances n P w) : Advances n P (walkNext env fuel wrule w d) := by
  cases d with
  | none =>
    rw [walkNext]
    exact hw
  | some d =>
    intro p hp
    rw [walkNext]
    apply From.place
    apply From.bind (hd d rfl [] p hp)
    intro v q hv
    cases hf : v.isFailed with
    | true =>
      rw [Value.eq_failed hf]
      exact .pure (.failed hv.le hv.inside)
    | false =>
      apply From.bind (hw q hv.inside)
      intro v' q' hv'
      cases v'.isFailed with
      | true => exact .seek (.pure (.failed le_rfl hp))
      | false => exact .pure (.trans hv.le hv')

namespace Repetition

/-- No more rounds than these are left at place `p` after `vs`. -/
def left (r : Repetition) (n : ℕ) (vs : List Value) (p : ℕ) : ℕ :=
  match r.most with
  | none => n - p
  | some m => m.toNat - vs.length

theorem left_lt (hf : n + UInt32.size ≤ fuel) (vs : List Value) (p : ℕ) : r.left n vs p < fuel := by
  unfold left
  split
  · have : 0 < UInt32.size := by decide
    omega
  · next m _ =>
    have := m.toNat_lt_size
    omega

/-- A round that matches is one of those that were left. -/
theorem from_round (hl : Advances n (g.Nullable r.operand) (r.later env fuel wrule))
    (hm : r.most = none → ¬g.Nullable r.operand) (vs : List Value) (v : Value) {p : ℕ} (hp : p ≤ n) :
    From p (if r.isFull (vs ++ [v]) then pure .failed else r.later env fuel wrule) fun w q =>
      p ≤ q ∧ q ≤ n ∧ (w.isFailed = false → r.left n (vs ++ [v]) q < r.left n vs p) := by
  cases hfull : r.isFull (vs ++ [v]) with
  | true =>
    refine .pure ⟨le_rfl, hp, fun h => ?_⟩
    cases h
  | false =>
    apply (hl p hp).mono
    intro w q hw
    refine ⟨hw.le, hw.inside, fun hf => ?_⟩
    have hle := hw.le
    have hq := hw.inside
    unfold left
    cases hmost : r.most with
    | none =>
      have hne : q ≠ p := fun h => hm hmost (hw.stays hf h)
      dsimp only
      omega
    | some m =>
      rw [isFull, hmost] at hfull
      simp at hfull ⊢
      omega

/-- A repetition comes to an end if it has an upper bound or its operand always moves. -/
theorem advances (ho : ∀ ls, Advances n (g.Nullable r.operand) (r.operand.walk env fuel wrule ls))
    (hd : ∀ e ∈ r.delimiter, ∀ ls, Advances n (g.Nullable e) (e.walk env fuel wrule ls))
    (hm : r.most = none → ¬g.Nullable r.operand) (hf : n + UInt32.size ≤ fuel) :
    Advances n (r.least = 0 ∨ g.Nullable r.operand)
      (r.attempt env fuel wrule [] >>= r.settle env fuel wrule fuel []) := by
  intro p hp
  apply From.bind (ho [] p hp)
  intro v q hv
  have hround := fun vs v p hp => from_round (advances_walkNext hd (ho [])) hm vs v (p := p) hp
  apply From.bind (From.gather (r.left n) hround hv.inside fun _ => left_lt hf [] q)
  rintro ws q' ⟨hle, hq', hnone⟩
  refine .pure ⟨hv.le.trans hle, hq', fun hmatch hp' => ?_⟩
  rcases Nat.eq_zero_or_pos r.least with hl | hl
  · exact .inl hl
  · right
    have henough : ¬ws.length < r.least := by
      intro hlt
      rw [result, if_pos hlt] at hmatch
      cases hmatch
    -- so the first attempt has matched
    apply hv.stays
    · by_contra hfail
      rw [hnone (by simpa using hfail)] at henough
      exact henough hl
    · have := hv.le
      omega

end Repetition

theorem advances_expecting_or {w : Walk σ Value} {b : Bool} {x : Expectation} {P : Prop} {p : ℕ}
    (hp : p ≤ n) (hw : b = true → From p w (Onward n p P)) :
    From p (if b then w else expecting x) (Onward n p P) := by
  cases b with
  | true => exact hw rfl
  | false =>
    apply (From.expecting x).mono
    rintro v q ⟨rfl, rfl⟩
    exact .failed le_rfl hp

theorem advances_one (test : Char → Bool) (x : Expectation) (P : Prop) :
    Advances env.input.size P (one env test x) := by
  intro p hp
  apply From.place
  apply advances_expecting_or hp
  intro htest
  apply (From.accept 1).mono
  rintro v q rfl
  have hlt : p < env.input.size := by
    by_contra hge
    rw [Array.getElem?_eq_none (not_lt.mp hge)] at htest
    cases htest
  apply Onward.moved <;> omega

theorem advances_literal (value : String) (ignoreCase : Bool) :
    Advances env.input.size (g.Nullable (.literal value ignoreCase))
      (Walk.literal env value ignoreCase) := by
  intro p hp
  unfold Walk.literal
  cases hempty : value.isEmpty with
  | true =>
    obtain rfl := String.isEmpty_iff.mp hempty
    exact .pure ⟨le_rfl, hp, fun _ _ => .literal ignoreCase⟩
  | false =>
    have hlen : 0 < value.length := by
      apply Nat.pos_of_ne_zero
      intro h
      rw [String.isEmpty_iff.mpr (String.length_eq_zero_iff.mp h)] at hempty
      cases hempty
    apply From.place
    cases ignoreCase with
    | true =>
      apply advances_expecting_or hp
      intro hat
      have hlt := Input.lt_size_of_hasFoldedAt (Text.lower_ne_nil hempty) hat
      apply (From.accept value.length).mono
      rintro v q rfl
      apply Onward.moved <;> omega
    | false =>
      apply advances_expecting_or hp
      intro hat
      have hle : p + value.length ≤ env.input.size := by
        unfold Input.hasAt at hat
        simp at hat
        exact hat.1
      exact .seek (.pure (.moved (by omega) hle))

theorem advances_guard (wanted : Bool) (code : String) (ls : Labels Value) {P : Prop} (hP : P) :
    Advances n P (Walk.guard env wanted code ls) := by
  intro p hp
  apply From.place
  apply From.bind (From.call p code ls)
  rintro v q rfl
  exact .pure ⟨le_rfl, hp, fun _ _ => hP⟩

/-- An expression in which all that is repeated without an upper bound moves goes on itself. -/
theorem Expr.advances (env : Walk.Env σ)
    (hrule : ∀ name, Advances env.input.size (g.Nullable (.rule name)) (wrule name))
    (hf : env.input.size + UInt32.size ≤ fuel) (e : Expr) (he : g.Guards e) (ls : Labels Value) :
    Advances env.input.size (g.Nullable e) (e.walk env fuel wrule ls) := by
  induction e using Expr.inner_induction generalizing ls with
  | inner e hp hpp =>
    have hpart := fun d hd => hp d hd (he.part hd)
    cases hrep : e.repetition? with
    | some r =>
      have hr : ∀ d ∈ r.operand :: r.delimiter.toList, d ∈ e.children := by
        cases e <;> cases hrep <;> simp [Expr.children]
      rw [Expr.walk_repetition hrep]
      have hrounds := r.advances (hpart _ (hr _ List.mem_cons_self))
        (fun d hd => hpart d (hr d (List.mem_cons_of_mem _ (by simpa using hd)))) (he.self hrep) hf
      exact hrounds.mono (.repetition hrep)
    | none =>
      cases e with
      | named name e =>
        rw [Expr.walk]
        intro p hle
        apply From.bind (From.silenced (hpart e List.mem_cons_self ls p hle))
        intro v q hv
        cases v.isFailed with
        | true =>
          apply (From.expecting _).mono
          rintro u q' ⟨rfl, rfl⟩
          exact .failed hv.le hv.inside
        | false => exact .pure (hv.mono .named)
      | choice es =>
        rw [Expr.walk]
        apply (advances_walkChoice hpart).mono
        rintro ⟨d, hd, hn⟩
        exact .choice hd hn
      | action e code =>
        cases hl : e.hasElements with
        | true =>
          obtain ⟨d, es, rfl⟩ := Expr.eq_sequence hl
          rw [Expr.walk_actionOfElements]
          have hes := fun d' hd' =>
            hpp _ List.mem_cons_self d' hd' ((he.part List.mem_cons_self).part hd')
          exact (advances_sequence hes (some code) []).mono fun h => .action (.sequence h)
        | false =>
          rw [Expr.walk_action hl]
          intro p hle
          apply From.place
          apply From.bind (hpart e List.mem_cons_self [] p hle)
          intro v q hv
          cases hf : v.isFailed with
          | true => exact .pure (hv.mono .action)
          | false =>
            apply (From.call p code _).mono
            rintro u q' rfl
            exact (hv.replace hf u).mono .action
      | sequence es =>
        rw [Expr.walk_sequence]
        exact (advances_sequence hpart none ls).mono .sequence
      | labeled label e =>
        rw [Expr.walk]
        exact (hpart e List.mem_cons_self []).mono .labeled
      | text e =>
        rw [Expr.walk]
        intro p hle
        apply From.place
        apply From.bind (hpart e List.mem_cons_self [] p hle)
        intro v q hv
        cases hf : v.isFailed with
        | true => exact .pure (hv.mono .text)
        | false =>
          apply From.place
          exact .pure ((hv.replace hf _).mono .text)
      | followedBy e =>
        rw [Expr.walk]
        intro p hle
        apply From.place
        apply From.bind (From.silenced (hpart e List.mem_cons_self [] p hle))
        intro v q hv
        cases v.isFailed with
        | true => exact .pure (hv.any (.followedBy e) _)
        | false => exact .seek (.pure ⟨le_rfl, hle, fun _ _ => .followedBy e⟩)
      | notFollowedBy e =>
        rw [Expr.walk]
        intro p hle
        apply From.place
        apply From.bind (From.silenced (hpart e List.mem_cons_self [] p hle))
        intro v q hv
        cases v.isFailed with
        | true => exact .pure (hv.any (.notFollowedBy e) _)
        | false => exact .seek (.pure ⟨le_rfl, hle, fun _ _ => .notFollowedBy e⟩)
      | guard code =>
        rw [Expr.walk]
        exact advances_guard true code ls (.guard code)
      | guardNot code =>
        rw [Expr.walk]
        exact advances_guard false code ls (.guardNot code)
      | optional e =>
        rw [Expr.walk]
        intro p hle
        apply From.bind (hpart e List.mem_cons_self [] p hle)
        intro v q hv
        exact .pure (hv.any (.optional e) _)
      | rule name =>
        rw [Expr.walk]
        exact hrule name
      | literal value ignoreCase =>
        rw [Expr.walk]
        exact advances_literal value ignoreCase
      | charClass k text =>
        rw [Expr.walk]
        exact advances_one _ _ _
      | any =>
        rw [Expr.walk]
        exact advances_one _ _ _
      | zeroOrMore | oneOrMore | bounded => cases hrep

end

end PegMachine
