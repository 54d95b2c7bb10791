import PegMachine.Proofs.Results
import PegMachine.Machine.Step

/-! What instructions leave alone. An instruction that runs no rule counts no instructions, and only
one of them records a failure. It stops for want of an operand, or because the host has refused a call. -/
namespace PegMachine

variable {σ α β γ δ : Type} {S : Stack} {p : Program} {i : UInt32} {v : Value}

/-- Where the operation fails, it is with a fault for which `P`. -/
def Fails (P : Fault → Prop) (x : Except Fault α) : Prop := ∀ f, x = .error f → P f

namespace Fails

variable {P : Fault → Prop}

theorem ok (a : α) : Fails P (.ok a) := by
  intro f h
  cases h

theorem error {f : Fault} (hf : P f) : Fails (α := α) P (.error f) := by
  rintro f' ⟨⟩
  exact hf

theorem bind {x : Except Fault α} {f : α → Except Fault β} (hx : Fails P x)
    (hf : ∀ a, x = .ok a → Fails P (f a)) : Fails P (x >>= f) := by
  cases x with
  | error e => exact error (hx e rfl)
  | ok a => exact hf a rfl

section Constants

variable (hP : ∀ u, P (.badConstant i u))

include hP

theorem value : Fails P (p.value i) := by
  unfold Program.value
  split <;> first | exact ok _ | exact error (hP _)

theorem string : Fails P (p.string i) := by
  unfold Program.string
  split <;> first | exact ok _ | exact error (hP _)

theorem charClass : Fails P (p.charClass i) := by
  unfold Program.charClass
  split <;> first | exact ok _ | exact error (hP _)

theorem expectation : Fails P (p.expectation i) := by
  unfold Program.expectation
  split <;> first | exact ok _ | exact error (hP _)

theorem function : Fails P (p.function i) := by
  unfold Program.function
  split <;> first | exact ok _ | exact error (hP _)

end Constants

section Kinds

variable (hP : ∀ k l, P (.typeError k l))

include hP

theorem place : Fails P (Stack.place v) := by
  cases v <;> first | exact ok _ | exact error (hP _ _)

theorem items : Fails P (Stack.items v) := by
  cases v <;> first | exact ok _ | exact error (hP _ _)

theorem bound : Fails P (Stack.bound v) := by
  cases v <;> first | exact ok _ | exact error (hP _ _)

end Kinds

end Fails

/-- The faults of an operation that does not find what it needs. -/
def Fault.OfOperand : Fault → Prop
  | .stackUnderflow .. | .typeError .. | .badConstant .. => True
  | _ => False

/-- Where the operation fails, it has not found what it needs. -/
def Operation (x : Except Fault α) : Prop := ∀ f, x = .error f → f.OfOperand

namespace Operation

theorem ok (a : α) : Operation (.ok a) := Fails.ok a

theorem error {f : Fault} (hf : f.OfOperand) : Operation (α := α) (.error f) := Fails.error hf

theorem bind {x : Except Fault α} {f : α → Except Fault β} (hx : Operation x)
    (hf : ∀ a, Operation (f a)) : Operation (x >>= f) :=
  Fails.bind hx fun a _ => hf a

end Operation

section

open Operation

theorem Program.operation_value : Operation (p.value i) := Fails.value fun _ => trivial

theorem Program.operation_string : Operation (p.string i) := Fails.string fun _ => trivial

theorem Program.operation_charClass : Operation (p.charClass i) := Fails.charClass fun _ => trivial

theorem Program.operation_expectation : Operation (p.expectation i) :=
  Fails.expectation fun _ => trivial

theorem Program.operation_function : Operation (p.function i) := Fails.function fun _ => trivial

namespace Stack

theorem operation_pop : Operation S.pop := by
  cases S with
  | nil => exact error trivial
  | cons v S => exact ok _

theorem operation_top : Operation S.top := by
  cases S with
  | nil => exact error trivial
  | cons v S => exact ok _

theorem operation_popN {n : ℕ} : Operation (S.popN n) := by
  unfold popN
  split
  · exact error trivial
  · exact ok _

theorem operation_wrap {n : ℕ} : Operation (S.wrap n) := by
  unfold wrap
  split
  · exact error trivial
  · exact ok _

theorem operation_peek {n : ℕ} : Operation (S.peek n) := by
  unfold peek
  split
  · exact ok _
  · exact error trivial

theorem operation_peekAll {slots : Code} : Operation (S.peekAll slots) := by
  induction slots with
  | nil => exact ok _
  | cons k slots ih => exact operation_peek.bind fun _ => ih.bind fun _ => ok _

theorem operation_place : Operation (place v) := Fails.place fun _ _ => trivial

theorem operation_items : Operation (items v) := Fails.items fun _ _ => trivial

theorem operation_bound : Operation (bound v) := Fails.bound fun _ _ => trivial

theorem operation_nip : Operation S.nip := by
  unfold nip
  split
  · exact ok _
  · exact error trivial

theorem operation_append : Operation S.append := by
  unfold append
  split
  · exact error trivial
  · exact error trivial
  · exact operation_items.bind fun _ => ok _

end Stack

theorem Test.operation_holds {env : Env σ} {n : ℕ} (t : Test) : Operation (t.holds env n S) := by
  cases t with
  | isTrue | isFailed | isMatched => exact Stack.operation_top.bind fun _ => ok _
  | isShort | isFull =>
    refine Stack.operation_pop.bind fun _ => Stack.operation_bound.bind fun _ => ?_
    exact Stack.operation_top.bind fun _ => Stack.operation_items.bind fun _ => ok _
  | any => exact ok _
  | string | folded => exact Program.operation_string.bind fun _ => ok _
  | charClass => exact Program.operation_charClass.bind fun _ => ok _

end

/-- A stop of a single instruction: an operand is missing, or the host has refused a call. -/
def Stop.Local : Stop → Prop
  | .fault f => f.OfOperand
  | .host _ => True
  | .fuel => False

namespace Run

/-- However `f` ends, `P` of the state is as it was, and no more than an instruction has stopped it. -/
structure Keeps (P : State σ → γ) (f : Run σ α) : Prop where
  ok {s : State σ} {a : α} {t : State σ} (h : f s = .ok a t) : P t = P s
  error {s : State σ} {x : Stop} {t : State σ} (h : f s = .error x t) : P t = P s ∧ x.Local

namespace Keeps

variable {P : State σ → γ} {f : Run σ α}

theorem map (h : Keeps P f) (k : γ → δ) : Keeps (fun s => k (P s)) f := by
  constructor
  case ok =>
    intro s a t ht
    exact congrArg k (h.ok ht)
  case error =>
    intro s x t ht
    exact ⟨congrArg k (h.error ht).1, (h.error ht).2⟩

theorem pure (a : α) : Keeps P (pure a) := by
  constructor
  case ok =>
    intro s b t ht
    obtain ⟨-, rfl⟩ := pure_eq_ok.mp ht
    rfl
  case error =>
    intro s x t ht
    cases ht

theorem bind {f' : α → Run σ β} (hf : Keeps P f) (hk : ∀ a, Keeps P (f' a)) :
    Keeps P (f >>= f') := by
  constructor
  case ok =>
    intro s b t ht
    obtain ⟨a, u, hu, ht⟩ := bind_eq_ok.mp ht
    exact ((hk a).ok ht).trans (hf.ok hu)
  case error =>
    intro s x t ht
    rcases bind_eq_error.mp ht with ht | ⟨a, u, hu, ht⟩
    · exact hf.error ht
    · obtain ⟨hP, hx⟩ := (hk a).error ht
      exact ⟨hP.trans (hf.ok hu), hx⟩

theorem get : Keeps P get := by
  constructor
  case ok =>
    intro s a t ht
    cases ht
    rfl
  case error =>
    intro s x t ht
    cases ht

theorem modify {u : State σ → State σ} (hu : ∀ s, P (u s) = P s) : Keeps P (modify u) := by
  constructor
  case ok =>
    intro s a t ht
    cases ht
    exact hu s
  case error =>
    intro s x t ht
    cases ht

theorem ofExcept {x : Except Fault α} (hx : Operation x) : Keeps P (ofExcept x) := by
  cases x with
  | ok a => exact .pure a
  | error e =>
    constructor
    case ok =>
      intro s a t ht
      cases ht
    case error =>
      intro s y t ht
      cases ht
      exact ⟨rfl, hx e rfl⟩

end Keeps
end Run

open Run

/-- What the machine writes down about a run: the furthest failure and the number of instructions. -/
def State.account (s : State σ) : Report × ℕ := (s.report, s.steps)

namespace Instr

variable {env : Env σ} {rule : ℕ → Run σ Value} {i : Instr}

/-- What depends neither on the place nor on where the next report begins is changed by four
instructions at most. -/
theorem keeps {P : State σ → γ} (hpos : ∀ s p, P { s with pos := p } = P s)
    (hreported : ∀ s p, P { s with reported := p } = P s) (hr : ∀ j, i ≠ .rule j)
    (hf : ∀ j, i ≠ .fail j) (hon : i ≠ .silenceOn) (hoff : i ≠ .silenceOff) :
    Keeps P (i.run env rule S) := by
  cases i with
  | rule j => exact absurd rfl (hr j)
  | fail j => exact absurd rfl (hf j)
  | silenceOn => exact absurd rfl hon
  | silenceOff => exact absurd rfl hoff
  | push => exact (Keeps.ofExcept Program.operation_value).bind fun _ => .pure _
  | pushPos => exact Keeps.get.bind fun _ => .pure _
  | pop => exact (Keeps.ofExcept Stack.operation_pop).bind fun _ => .pure _
  | popPos =>
    refine (Keeps.ofExcept Stack.operation_pop).bind fun _ => ?_
    refine (Keeps.ofExcept Stack.operation_place).bind fun _ => (Keeps.modify ?_).bind fun _ => .pure _
    exact fun s => hpos s _
  | popN => exact .ofExcept Stack.operation_popN
  | nip => exact .ofExcept Stack.operation_nip
  | append => exact .ofExcept Stack.operation_append
  | wrap => exact .ofExcept Stack.operation_wrap
  | text =>
    refine (Keeps.ofExcept Stack.operation_pop).bind fun _ => ?_
    refine (Keeps.ofExcept Stack.operation_top).bind fun _ => ?_
    refine (Keeps.ofExcept Stack.operation_place).bind fun _ => ?_
    exact Keeps.get.bind fun _ => .pure _
  | acceptN =>
    refine Keeps.get.bind fun _ => (Keeps.modify ?_).bind fun _ => .pure _
    exact fun s => hpos s _
  | acceptString =>
    refine (Keeps.ofExcept Program.operation_string).bind fun _ => ?_
    refine Keeps.get.bind fun _ => (Keeps.modify ?_).bind fun _ => .pure _
    exact fun s => hpos s _
  | reportSaved =>
    refine (Keeps.ofExcept Stack.operation_peek).bind fun _ => ?_
    refine (Keeps.ofExcept Stack.operation_place).bind fun _ => (Keeps.modify ?_).bind fun _ => .pure _
    exact fun s => hreported s _
  | reportHere =>
    refine (Keeps.modify ?_).bind fun _ => .pure _
    exact fun s => hreported s _

theorem keeps_account (hr : ∀ j, i ≠ .rule j) (hf : ∀ j, i ≠ .fail j) :
    Keeps State.account (i.run env rule S) := by
  cases i with
  | silenceOn | silenceOff =>
    refine (Keeps.modify ?_).bind fun _ => .pure _
    exact fun _ => rfl
  | _ => exact keeps (fun _ _ => rfl) (fun _ _ => rfl) hr hf (by simp) (by simp)

/-- An instruction that runs no rule counts no instructions. -/
theorem keeps_steps (hr : ∀ j, i ≠ .rule j) : Keeps State.steps (i.run env rule S) := by
  cases i with
  | rule j => exact absurd rfl (hr j)
  | fail j =>
    refine (Keeps.ofExcept Program.operation_expectation).bind fun _ => ?_
    refine (Keeps.modify ?_).bind fun _ => .pure _
    exact fun _ => rfl
  | _ => exact (keeps_account hr (by simp)).map Prod.snd

end Instr

/-- Only the state of the host changes when it is called. -/
theorem Run.callHost_eq (env : Env σ) {f : UInt32} {fn : ActionFn}
    (hf : env.program.function f = .ok fn) (args : List Value) (s : State σ) :
    callHost env f args s =
      match env.host fn ⟨env.input, s.reported, s.pos⟩ args s.host with
      | (.ok v, h) => .ok v { s with host := h }
      | (.error e, h) => .error (.host e) { s with host := h } := by
  rcases hr : env.host fn ⟨env.input, s.reported, s.pos⟩ args s.host with ⟨answer, h⟩
  have hc : s.toProgress.call env.host env.input s.reported fn args =
      (answer, { s.toProgress with host := h }) := by
    rw [Progress.call, hr]
  have hget (k : State σ → Run σ Value) : (get >>= k) s = k s s := rfl
  simp only [callHost, hf, Run.ofExcept, pure_bind, hget, hc]
  cases answer with
  | ok v => rfl
  | error e => rfl

/-- What does not depend on the state of the host is as it was after a call. -/
theorem Run.keeps_of_host {env : Env σ} {f : UInt32} {args : List Value} {P : State σ → γ}
    (hP : ∀ s h, P { s with host := h } = P s) : Keeps P (callHost env f args) := by
  cases hf : env.program.function f with
  | error e =>
    have hc : callHost env f args = fault e := by
      rw [callHost, hf]
      rfl
    rw [hc]
    exact .ofExcept (.error (Program.operation_function e hf))
  | ok fn =>
    constructor
    case ok =>
      intro s v t ht
      rw [callHost_eq env hf] at ht
      split at ht
      · cases ht
        exact hP s _
      · cases ht
    case error =>
      intro s x t ht
      rw [callHost_eq env hf] at ht
      split at ht
      · cases ht
      · cases ht
        exact ⟨hP s _, trivial⟩

theorem Run.keeps_callHost {env : Env σ} {f : UInt32} {args : List Value} :
    Keeps State.account (callHost env f args) :=
  keeps_of_host fun _ _ => rfl

end PegMachine
