import PegMachine.Proofs.Code.Slots
import PegMachine.Proofs.Machine.Follows
import PegMachine.Proofs.Machine.Frame
import PegMachine.Proofs.Semantics.Nodes

/-! Silence in typed code. What is silenced is left out of the report, and at its end the code is
silenced as often as at its start. -/
namespace PegMachine

variable {σ α β : Type} {K : List Constant} {ok : Calling} {c : Code} {Γ Δ : List Slot} {S : Stack}
  {n : ℕ}

open Run

namespace Run

/-- A run that ends is silenced as often at its end as at its start. Where it is silenced `n` times or
more it leaves the report as it is, whether it ends or stops. -/
structure Hushes (n : ℕ) (f : Run σ α) : Prop where
  balanced {s t : State σ} {a : α} (h : f s = .ok a t) : t.silence = s.silence
  ok {s t : State σ} {a : α} (h : f s = .ok a t) (hn : n ≤ s.silence) : t.report = s.report
  error {s t : State σ} {x : Stop} (h : f s = .error x t) (hn : n ≤ s.silence) : t.report = s.report

namespace Hushes

variable {f : Run σ α} {f' : α → Run σ β}

theorem pure (a : α) : Hushes (σ := σ) n (pure a) := by
  constructor
  case balanced | ok =>
    intro s t b h
    obtain ⟨-, rfl⟩ := pure_eq_ok.mp h
    simp
  case error =>
    intro s t x h
    cases h

theorem stop (x : Stop) : Hushes (α := α) (σ := σ) n (throw x) := by
  constructor
  case balanced | ok =>
    intro s t b h
    cases h
  case error =>
    intro s t y h
    cases h
    simp

theorem get : Hushes (σ := σ) n get := by
  constructor
  case balanced | ok =>
    intro s t b h
    cases h
    simp
  case error =>
    intro s t x h
    cases h

theorem update {u : State σ → State σ} (hs : ∀ s, (u s).silence = s.silence)
    (hr : ∀ s, n ≤ s.silence → (u s).report = s.report) : Hushes n (modify u) := by
  constructor
  case balanced =>
    intro s t a h
    cases h
    exact hs s
  case ok =>
    intro s t a h hn
    cases h
    exact hr s hn
  case error =>
    intro s t x h
    cases h

theorem ofExcept {x : Except Fault α} : Hushes (σ := σ) n (ofExcept x) := by
  cases x with
  | ok a => exact .pure a
  | error e => exact .stop _

theorem of_keeps (h : Keeps (fun s => (s.silence, s.report)) f) : Hushes n f := by
  constructor
  case balanced =>
    intro s t a ht
    exact (Prod.mk.inj (h.ok ht)).1
  case ok =>
    intro s t a ht _
    exact (Prod.mk.inj (h.ok ht)).2
  case error =>
    intro s t x ht _
    exact (Prod.mk.inj (h.error ht).1).2

theorem bind (hf : Hushes n f) (hk : ∀ a, Hushes n (f' a)) : Hushes n (f >>= f') := by
  constructor
  case balanced =>
    intro s t b h
    obtain ⟨a, u, hu, h⟩ := bind_eq_ok.mp h
    exact ((hk a).balanced h).trans (hf.balanced hu)
  case ok =>
    intro s t b h hn
    obtain ⟨a, u, hu, h⟩ := bind_eq_ok.mp h
    exact ((hk a).ok h (hn.trans (hf.balanced hu).ge)).trans (hf.ok hu hn)
  case error =>
    intro s t x h hn
    rcases bind_eq_error.mp h with h | ⟨a, u, hu, h⟩
    · exact hf.error h hn
    · exact ((hk a).error h (hn.trans (hf.balanced hu).ge)).trans (hf.ok hu hn)

theorem tick (limits : Limits) (S : Stack) : Hushes (σ := σ) n (tick limits S) := by
  constructor
  case balanced | ok =>
    intro s t b h
    obtain rfl := tick_eq_ok h
    simp
  case error =>
    intro s t x h _
    rcases tick_cases limits S s with hs | ⟨y, -, hs⟩
    · rw [hs] at h
      cases h
    · rw [hs] at h
      cases h
      rfl

/-- Between a silencing and its end the report does not change, however often it is silenced
outside. -/
theorem silenced (hf : Hushes 1 f) (hk : ∀ a, Hushes n (f' a)) : Hushes n (do
    modify fun s => { s with silence := s.silence + 1 }
    let a ← f
    modify fun s => { s with silence := s.silence - 1 }
    f' a) := by
  constructor
  case balanced =>
    intro s t b h
    obtain ⟨_, u, hu, h⟩ := bind_eq_ok.mp h
    cases hu
    obtain ⟨a, v, hv, h⟩ := bind_eq_ok.mp h
    obtain ⟨_, w, hw, h⟩ := bind_eq_ok.mp h
    cases hw
    have hs := hf.balanced hv
    exact ((hk a).balanced h).trans (congrArg (· - 1) hs)
  case ok =>
    intro s t b h hn
    obtain ⟨_, u, hu, h⟩ := bind_eq_ok.mp h
    cases hu
    obtain ⟨a, v, hv, h⟩ := bind_eq_ok.mp h
    obtain ⟨_, w, hw, h⟩ := bind_eq_ok.mp h
    cases hw
    have hs : v.silence - 1 = s.silence := congrArg (· - 1) (hf.balanced hv)
    have hr := hf.ok hv (Nat.le_add_left 1 s.silence)
    exact ((hk a).ok h (hn.trans hs.ge)).trans hr
  case error =>
    intro s t x h hn
    rcases bind_eq_error.mp h with h | ⟨_, u, hu, h⟩
    · cases h
    cases hu
    rcases bind_eq_error.mp h with h | ⟨a, v, hv, h⟩
    · have hr := hf.error h (Nat.le_add_left 1 s.silence)
      exact hr
    rcases bind_eq_error.mp h with h | ⟨_, w, hw, h⟩
    · cases h
    cases hw
    have hs : v.silence - 1 = s.silence := congrArg (· - 1) (hf.balanced hv)
    have hr := hf.ok hv (Nat.le_add_left 1 s.silence)
    exact ((hk a).error h (hn.trans hs.ge)).trans hr

theorem whileMatched {body : Stack → Run σ Stack} (hb : ∀ S, Hushes n (body S)) (fuel : ℕ)
    (S : Stack) : Hushes n (whileMatched body fuel S) := by
  induction fuel generalizing S with
  | zero =>
    rw [Run.whileMatched]
    refine ofExcept.bind fun v => ?_
    split
    · exact .pure S
    · exact .stop _
  | succ fuel ih =>
    rw [Run.whileMatched]
    refine ofExcept.bind fun v => ?_
    split
    · exact .pure S
    · exact (hb S).bind ih

end Hushes
end Run

variable {env : Env σ} {rule : ℕ → Run σ Value} {i : Instr}

/-- A failure is recorded only where it is not silenced. -/
theorem Instr.Turns.hushes (hi : i.Turns K Γ Δ) (hr : ∀ j, Hushes 1 (rule j)) (S : Stack) :
    Hushes 1 (i.run env rule S) := by
  cases hi with
  | rule => exact (hr _).bind fun _ => .pure _
  | fail =>
    refine Hushes.ofExcept.bind fun e => (Hushes.update (fun s => ?_) fun s hs => ?_).bind fun _ =>
      .pure _
    · unfold Progress.fail
      split <;> rfl
    · rw [Progress.fail, if_neg (by omega)]
  | _ => exact .of_keeps (keeps (fun _ _ => rfl) (fun _ _ => rfl) (by simp) (by simp) (by simp)
      (by simp))

theorem Instr.Reports.hushes (hi : i.Reports Γ) (S : Stack) : Hushes 1 (i.run env rule S) := by
  cases hi with
  | here | saved => exact .of_keeps (keeps (fun _ _ => rfl) (fun _ _ => rfl) (by simp) (by simp)
      (by simp) (by simp))

namespace Activation

variable {A : Activation σ} {yes no br : Code} {t : Test}

theorem hushes_words (hi : ∀ S, Hushes n (i.run A.env A.rule S))
    (hc : ∀ ip S, Hushes n (A.exec ip c S)) (ip : ℕ) (S : Stack) :
    Hushes n (A.exec ip (i.words ++ c) S) := by
  rw [exec_words]
  exact (Hushes.tick _ _).bind fun _ => (hi S).bind fun S' => hc _ S'

theorem hushes_silenced {inner : Code} (hw : inner.Whole) (hi : ∀ ip S, Hushes 1 (A.exec ip inner S))
    (hc : ∀ ip S, Hushes n (A.exec ip c S)) (ip : ℕ) (S : Stack) :
    Hushes n (A.exec ip (Instr.silenceOn.words ++ (inner ++ (Instr.silenceOff.words ++ c))) S) := by
  have hon : Instr.silenceOn.run A.env A.rule S =
      (modify fun s => { s with silence := s.silence + 1 }) >>= fun _ => pure S := rfl
  have hoff (j : ℕ) : A.exec j (Instr.silenceOff.words ++ c) = fun T => (do
      tick A.env.limits T
      modify fun s => { s with silence := s.silence - 1 }
      A.exec (j + Instr.silenceOff.words.length) c T) := funext fun T => exec_words A j _ c T
  have hinner (j : ℕ) : Hushes 1 (do
      let T ← A.exec j inner S
      tick A.env.limits T
      pure T) :=
    (hi j S).bind fun T => (Hushes.tick _ T).bind fun _ => .pure T
  have hwhole (j k : ℕ) := (hinner j).silenced fun T => hc k T
  simp only [bind_assoc, pure_bind] at hwhole
  rw [exec_words, hon]
  simp only [exec_append hw, hoff, bind_assoc, pure_bind]
  exact (Hushes.tick _ _).bind fun _ => hwhole _ _

theorem hushes_branch (hb : Code.branch t.words yes no = .ok br)
    (hy : ∀ ip S, Hushes n (A.exec ip yes S)) (hn : ∀ ip S, Hushes n (A.exec ip no S)) (ip : ℕ)
    (S : Stack) : Hushes n (A.exec ip br S) := by
  obtain ⟨j, k, hx⟩ := A.exec_branch hb ip S
  rw [hx]
  refine (Hushes.tick _ _).bind fun _ => Hushes.get.bind fun s => Hushes.ofExcept.bind fun x => ?_
  obtain ⟨answer, S'⟩ := x
  cases answer with
  | true => exact hy j S'
  | false => exact hn k S'

end Activation

/-- Typed code is hushed where it is silenced, if the rules that it runs are. -/
theorem Typed.hushes {A : Activation σ} (hc : Typed K ok c Γ Δ) (hr : ∀ j, Hushes 1 (A.rule j))
    (ip : ℕ) (S : Stack) : Hushes 1 (A.exec ip c S) := by
  induction hc generalizing ip S with
  | nil =>
    rw [Activation.exec_nil]
    exact .pure S
  | widen _ ih => exact ih ip S
  | instr hi _ ih => exact Activation.hushes_words (hi.hushes hr) ih ip S
  | silenced hi _ ihi ih =>
    exact Activation.hushes_silenced hi.whole ihi ih ip S
  | branch hb _ _ _ _ ihy ihn ih =>
    rw [Activation.exec_append (Code.whole_branch hb)]
    exact (Activation.hushes_branch hb ihy ihn ip S).bind (ih _)
  | @take k _ _ _ _ _ hb _ _ ihn ih =>
    rw [Activation.exec_append (Code.whole_branch hb)]
    refine (Activation.hushes_branch hb (fun j T => ?_) ihn ip S).bind (ih _)
    rw [Code.seq_cons, Code.seq_nil]
    refine Activation.hushes_words (fun T => ?_) (fun j T => ?_) j T
    · exact .of_keeps (Instr.keeps (fun _ _ => rfl) (fun _ _ => rfl) (by simp) (by simp) (by simp)
        (by simp))
    · rw [Activation.exec_nil]
      exact .pure T
  | loop hl _ _ ihb ih =>
    obtain ⟨j, hx⟩ := Activation.exec_loop hl A ip S
    rw [Activation.exec_append (Code.whole_loop hl), hx]
    refine Hushes.bind ?_ (ih _)
    exact (Hushes.tick _ _).bind fun _ => .whileMatched (ihb j) A.fuel S
  | call hi _ hn _ _ _ ih =>
    refine Activation.hushes_words hi.hushes (fun j T => ?_) ip S
    rw [Activation.exec_append (Code.whole_slots hn), Activation.exec_call hn]
    refine Hushes.bind ?_ (ih _)
    refine (Hushes.tick _ _).bind fun _ => Hushes.ofExcept.bind fun args => ?_
    refine (Hushes.of_keeps (keeps_of_host fun _ _ => rfl)).bind fun v => ?_
    exact Hushes.ofExcept.bind fun _ => .pure _

end PegMachine
