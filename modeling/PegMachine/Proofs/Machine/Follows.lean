import PegMachine.Proofs.Code.Execution
import PegMachine.Semantics.Walk

/-! A run of the machine follows a walk: they end in the same way and with the same progress, unless
the run meets one of its limits. -/
namespace PegMachine

variable {σ α β γ δ : Type} {H : Host σ} {R : α → β → Prop} {Q : γ → δ → Prop}
  {f : Run σ α} {w : Walk σ β}

/-- The limits on a run: a walk has none of them. -/
def Stop.AtLimit : Stop → Prop
  | .fault (.stepLimit _) | .fault (.callDepth _ _) | .fault (.stackLimit _) => True
  | _ => False

/-- The host, asked at some time, has answered with the fault and gone to state `h`. -/
def Host.Refuses (H : Host σ) (f : Fault) (h : σ) : Prop :=
  ∃ fn c args h', H fn c args h' = (.error f, h)

/-- The end of a run and the end of a walk. Of all stops only those of the host are left, and those
of loops that go on for too long. -/
inductive Matches (H : Host σ) (R : α → β → Prop) :
    EStateM.Result Stop (State σ) α → EStateM.Result Stop (Progress σ) β → Prop
  | ok {a : α} {b : β} {t : State σ} (h : R a b) : Matches H R (.ok a t) (.ok b t.toProgress)
  | limit {x : Stop} {t : State σ} {r : EStateM.Result Stop (Progress σ) β} (h : x.AtLimit) :
      Matches H R (.error x t) r
  | fuel {t : State σ} : Matches H R (.error .fuel t) (.error .fuel t.toProgress)
  | host {f : Fault} {t : State σ} (h : H.Refuses f t.host) :
      Matches H R (.error (.host f) t) (.error (.host f) t.toProgress)

theorem Matches.bind {f' : α → Run σ γ} {w' : β → Walk σ δ} {s : State σ} {p : Progress σ}
    (h : Matches H R (f s) (w p))
    (hk : ∀ a b t, R a b → Matches H Q (f' a t) (w' b t.toProgress)) :
    Matches H Q ((f >>= f') s) ((w >>= w') p) := by
  change Matches H Q (EStateM.bind f f' s) (EStateM.bind w w' p)
  unfold EStateM.bind
  generalize f s = x at h ⊢
  generalize w p = y at h ⊢
  cases h with
  | ok h => exact hk _ _ _ h
  | limit h => exact .limit h
  | fuel => exact .fuel
  | host h => exact .host h

/-- The run `f` follows the walk `w` from any state, with results related by `R`. -/
def Follows (H : Host σ) (f : Run σ α) (w : Walk σ β) (R : α → β → Prop) : Prop :=
  ∀ s, Matches H R (f s) (w s.toProgress)

namespace Follows

theorem pure {a : α} {b : β} (h : R a b) : Follows H (pure a) (pure b) R := by
  intro s
  exact .ok h

theorem bind {f' : α → Run σ γ} {w' : β → Walk σ δ} (hf : Follows H f w R)
    (hk : ∀ a b, R a b → Follows H (f' a) (w' b) Q) : Follows H (f >>= f') (w >>= w') Q := by
  intro s
  exact (hf s).bind fun a b t h => hk a b h t

/-- A step of the machine alone, which makes no progress. -/
theorem silent {f' : α → Run σ γ} {w : Walk σ δ} {a : α}
    (hf : ∀ s, ∃ t, f s = .ok a t ∧ t.toProgress = s.toProgress) (hk : Follows H (f' a) w Q) :
    Follows H (f >>= f') w Q := by
  intro s
  obtain ⟨t, ht, hp⟩ := hf s
  change Matches H Q (EStateM.bind f f' s) _
  rw [EStateM.bind, ht, ← hp]
  exact hk t

end Follows

theorem Run.tick_some (limits : Limits) (k : ℕ) (S : Stack) (s : State σ) :
    tick { limits with steps := some k } S s =
      if k < s.steps + 1 then .error (.fault (.stepLimit k)) { s with steps := s.steps + 1 }
      else if limits.stack < S.length then
        .error (.fault (.stackLimit limits.stack)) { s with steps := s.steps + 1 }
      else .ok () { s with steps := s.steps + 1 } := by
  unfold tick
  change (if k < s.steps + 1 then _ else if limits.stack < S.length then _ else _ : Run σ Unit) _ = _
  split
  · rfl
  · split <;> rfl

theorem Run.tick_none (limits : Limits) (S : Stack) (s : State σ) :
    tick { limits with steps := none } S s =
      if limits.stack < S.length then
        .error (.fault (.stackLimit limits.stack)) { s with steps := s.steps + 1 }
      else .ok () { s with steps := s.steps + 1 } := by
  unfold tick
  change (if limits.stack < S.length then _ else _ : Run σ Unit) _ = _
  split <;> rfl

/-- An instruction is counted, or meets a limit. -/
theorem Run.tick_cases (limits : Limits) (S : Stack) (s : State σ) :
    tick limits S s = .ok () { s with steps := s.steps + 1 } ∨
      ∃ x, x.AtLimit ∧ tick limits S s = .error x { s with steps := s.steps + 1 } := by
  obtain ⟨depth, steps, stack⟩ := limits
  cases steps with
  | none =>
    rw [tick_none ⟨depth, none, stack⟩ S s]
    split
    · exact .inr ⟨.fault (.stackLimit stack), trivial, rfl⟩
    · exact .inl rfl
  | some n =>
    rw [tick_some ⟨depth, none, stack⟩ n S s]
    split
    · exact .inr ⟨.fault (.stepLimit n), trivial, rfl⟩
    · split
      · exact .inr ⟨.fault (.stackLimit stack), trivial, rfl⟩
      · exact .inl rfl

/-- An instruction is counted just where the limits allow it. -/
theorem Run.tick_eq_ok_iff {limits : Limits} {S : Stack} {s t : State σ} {x : Unit} :
    tick limits S s = .ok x t ↔
      t = { s with steps := s.steps + 1 } ∧ (∀ n ∈ limits.steps, s.steps < n) ∧
        S.length ≤ limits.stack := by
  obtain ⟨depth, steps, stack⟩ := limits
  cases steps with
  | none =>
    rw [tick_none ⟨depth, none, stack⟩ S s]
    dsimp only
    split
    · simp
      omega
    · simp [eq_comm]
      omega
  | some n =>
    rw [tick_some ⟨depth, none, stack⟩ n S s]
    dsimp only
    split
    · simp
      omega
    · split
      · simp
        omega
      · simp [eq_comm]
        omega

theorem Run.tick_eq_ok {limits : Limits} {S : Stack} {s t : State σ} {x : Unit}
    (h : tick limits S s = .ok x t) : t = { s with steps := s.steps + 1 } :=
  (tick_eq_ok_iff.mp h).1

theorem Run.tick_bind_eq_ok {limits : Limits} {S : Stack} {s t : State σ} {a : α} :
    (tick limits S >>= fun _ => f) s = .ok a t ↔
      (∀ n ∈ limits.steps, s.steps < n) ∧ S.length ≤ limits.stack ∧
        f { s with steps := s.steps + 1 } = .ok a t := by
  rw [bind_eq_ok]
  constructor
  · rintro ⟨x, u, htick, hf⟩
    obtain ⟨rfl, hsteps, hstack⟩ := tick_eq_ok_iff.mp htick
    exact ⟨hsteps, hstack, hf⟩
  · rintro ⟨hsteps, hstack, hf⟩
    exact ⟨(), _, tick_eq_ok_iff.mpr ⟨rfl, hsteps, hstack⟩, hf⟩

/-- An instruction is counted and the run goes on, or it has met a limit. -/
theorem Run.tick_bind_cases (limits : Limits) (S : Stack) (k : Run σ α) (t : State σ) :
    (tick limits S >>= fun _ => k) t = k { t with steps := t.steps + 1 } ∨
      ∃ x t', x.AtLimit ∧ (tick limits S >>= fun _ => k) t = .error x t' := by
  change EStateM.bind _ _ t = _ ∨ ∃ x t', _ ∧ EStateM.bind _ _ t = _
  unfold EStateM.bind
  rcases tick_cases limits S t with h | ⟨x, hx, h⟩
  · rw [h]
    exact .inl rfl
  · rw [h]
    exact .inr ⟨x, _, hx, rfl⟩

theorem Matches.tick {limits : Limits} {S : Stack} {s : State σ}
    {r : EStateM.Result Stop (Progress σ) β} (hf : ∀ n, Matches H R (f { s with steps := n }) r) :
    Matches H R ((Run.tick limits S >>= fun _ => f) s) r := by
  rcases Run.tick_bind_cases limits S f s with h | ⟨x, t, hx, h⟩
  · rw [h]
    exact hf _
  · rw [h]
    exact .limit hx

theorem Follows.tick {limits : Limits} {S : Stack} (hf : Follows H f w R) :
    Follows H (Run.tick limits S >>= fun _ => f) w R := by
  intro s
  exact .tick fun n => hf { s with steps := n }

end PegMachine
