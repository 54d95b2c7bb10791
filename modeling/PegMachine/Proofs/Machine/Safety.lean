import PegMachine.Proofs.Code.Verified
import PegMachine.Proofs.Machine.Avoid
import PegMachine.Proofs.Machine.Frame
import PegMachine.Proofs.Semantics.Ending

/-! A program whose rules pass the check has no fault in its code: no run of it meets a word that is
no instruction, leaves a stretch of code or takes from an empty stack. -/
namespace PegMachine

variable {σ α β : Type} {S : Stack} {h k M : ℕ} {c : Code}

/-- The faults of code and of nothing else. -/
def Fault.OfCode : Fault → Prop
  | .badOpcode .. | .truncated .. | .spanOverrun .. | .stackUnderflow .. => True
  | _ => False

/-- The machine stops with a fault of the code. What the host answers is no fault of the code. -/
def Stop.OfCode : Stop → Prop
  | .fault f => f.OfCode
  | _ => False

theorem Stop.not_ofCode_of_atLimit {x : Stop} (hx : x.AtLimit) : ¬x.OfCode := by
  rcases x with f | f | _
  · cases f <;> first | exact hx.elim | exact id
  · exact id
  · exact id

/-- What an operation may meet besides a result is no fault of the code. -/
def Clean (x : Except Fault α) : Prop := ∀ f, x = .error f → ¬f.OfCode

namespace Clean

theorem ok (a : α) : Clean (.ok a) := Fails.ok a

theorem bind {x : Except Fault α} {f : α → Except Fault β} (hx : Clean x)
    (hf : ∀ a, x = .ok a → Clean (f a)) : Clean (x >>= f) :=
  Fails.bind hx hf

end Clean

section Operations

variable {p : Program} {i : UInt32} {v : Value}

theorem Program.clean_value : Clean (p.value i) := Fails.value fun _ => id

theorem Program.clean_string : Clean (p.string i) := Fails.string fun _ => id

theorem Program.clean_charClass : Clean (p.charClass i) := Fails.charClass fun _ => id

theorem Program.clean_expectation : Clean (p.expectation i) := Fails.expectation fun _ => id

theorem Program.clean_function : Clean (p.function i) := Fails.function fun _ => id

theorem Stack.exists_two (hS : 2 ≤ S.length) : ∃ v u T, S = v :: u :: T := by
  match S, hS with
  | v :: u :: T, _ => exact ⟨v, u, T, rfl⟩

theorem Stack.clean_place : Clean (place v) := Fails.place fun _ _ => id

theorem Stack.clean_items : Clean (items v) := Fails.items fun _ _ => id

theorem Stack.clean_bound : Clean (bound v) := Fails.bound fun _ _ => id

end Operations

namespace Run

/-- No run stops with a fault of the code. -/
def Safe (f : Run σ α) : Prop := ∀ s x t, f s = .error x t → ¬x.OfCode

namespace Safe

theorem pure (a : α) : Safe (σ := σ) (pure a) := Avoids.pure a

theorem bind {f : Run σ α} {f' : α → Run σ β} (hf : Safe f)
    (hk : ∀ s a u, f s = .ok a u → Safe (f' a)) : Safe (f >>= f') :=
  Avoids.bind hf hk

theorem get : Safe (get : Run σ (State σ)) := Avoids.get

theorem modify (f : State σ → State σ) : Safe (modify f) := by
  intro s x t h
  cases h

theorem set (u : State σ) : Safe (set u : Run σ PUnit) := by
  intro s x t h
  cases h

theorem stop {x : Stop} (hx : ¬x.OfCode) : Safe (α := α) (σ := σ) (throw x) := Avoids.stop hx

theorem ofExcept {x : Except Fault α} (hx : Clean x) : Safe (σ := σ) (ofExcept x) := by
  cases x with
  | ok a => exact pure a
  | error f => exact stop (x := .fault f) (hx f rfl)

theorem tick (limits : Limits) (S : Stack) : Safe (σ := σ) (tick limits S) := by
  intro s x t h
  rcases tick_cases limits S s with hs | ⟨y, hy, hs⟩
  · rw [hs] at h
    cases h
  · rw [hs] at h
    cases h
    exact Stop.not_ofCode_of_atLimit hy

end Safe
end Run

open Run

/-- An instruction that has the values it takes. -/
theorem Instr.safe {env : Env σ} {rule : ℕ → Run σ Value} {i : Instr} (hr : ∀ j, Safe (rule j))
    (ht : i.takes ≤ S.length) : Safe (i.run env rule S) := by
  cases i with
  | push => exact (Safe.ofExcept Program.clean_value).bind fun _ _ _ _ => .pure _
  | pushPos => exact Safe.get.bind fun _ _ _ _ => .pure _
  | pop =>
    obtain ⟨v, S, rfl⟩ := List.exists_cons_of_length_pos ht
    exact .pure _
  | popPos =>
    obtain ⟨v, S, rfl⟩ := List.exists_cons_of_length_pos ht
    refine (Safe.pure (v, S)).bind fun _ _ _ _ => ?_
    refine (Safe.ofExcept Stack.clean_place).bind fun _ _ _ _ => ?_
    exact (Safe.modify _).bind fun _ _ _ _ => .pure _
  | popN n =>
    have hn : S.popN n.toNat = .ok _ := Stack.popN_eq_ok.mpr ⟨ht, rfl⟩
    rw [run, hn]
    exact .pure _
  | nip =>
    obtain ⟨v, u, S, rfl⟩ := Stack.exists_two ht
    exact .pure _
  | append =>
    obtain ⟨v, u, S, rfl⟩ := Stack.exists_two ht
    exact .ofExcept (Stack.clean_items.bind fun _ _ => .ok _)
  | wrap n =>
    have hn : S.wrap n.toNat = .ok _ := Stack.wrap_eq_ok.mpr ⟨ht, rfl⟩
    rw [run, hn]
    exact .pure _
  | text =>
    obtain ⟨v, u, S, rfl⟩ := Stack.exists_two ht
    refine (Safe.pure (v, u :: S)).bind fun _ _ _ h => ?_
    obtain ⟨rfl, -⟩ := pure_eq_ok.mp h
    refine (Safe.pure u).bind fun _ _ _ _ => ?_
    refine (Safe.ofExcept Stack.clean_place).bind fun _ _ _ _ => ?_
    exact Safe.get.bind fun _ _ _ _ => .pure _
  | acceptN =>
    refine Safe.get.bind fun _ _ _ _ => ?_
    exact (Safe.modify _).bind fun _ _ _ _ => .pure _
  | acceptString =>
    refine (Safe.ofExcept Program.clean_string).bind fun _ _ _ _ => ?_
    refine Safe.get.bind fun _ _ _ _ => ?_
    exact (Safe.modify _).bind fun _ _ _ _ => .pure _
  | fail =>
    refine (Safe.ofExcept Program.clean_expectation).bind fun _ _ _ _ => ?_
    exact (Safe.modify _).bind fun _ _ _ _ => .pure _
  | reportSaved k =>
    have hk : S.peek k.toNat = .ok S[k.toNat] := by
      rw [Stack.peek_eq_ok]
      exact List.getElem?_eq_getElem ht
    rw [run, hk]
    refine (Safe.pure S[k.toNat]).bind fun _ _ _ _ => ?_
    refine (Safe.ofExcept Stack.clean_place).bind fun _ _ _ _ => ?_
    exact (Safe.modify _).bind fun _ _ _ _ => .pure _
  | rule i => exact (hr i.toNat).bind fun _ _ _ _ => .pure _
  | reportHere | silenceOn | silenceOff => exact (Safe.modify _).bind fun _ _ _ _ => .pure _

/-- A test that has the values it reads. -/
theorem Test.clean {env : Env σ} {p : ℕ} {t : Test} (ht : t.opcode.reads ≤ S.length) :
    Clean (t.holds env p S) := by
  cases t with
  | isTrue | isFailed | isMatched =>
    obtain ⟨v, S, rfl⟩ := List.exists_cons_of_length_pos ht
    exact .ok _
  | isShort | isFull =>
    obtain ⟨v, u, S, rfl⟩ := Stack.exists_two ht
    refine (Clean.ok (v, u :: S)).bind fun _ hS => ?_
    obtain rfl := Except.ok.inj hS
    refine Stack.clean_bound.bind fun _ _ => ?_
    refine (Clean.ok u).bind fun _ _ => ?_
    exact Stack.clean_items.bind fun _ _ => .ok _
  | any => exact .ok _
  | string | folded => exact Program.clean_string.bind fun _ _ => .ok _
  | charClass => exact Program.clean_charClass.bind fun _ _ => .ok _

theorem Stack.clean_peekAll {slots : Code} (hs : ∀ x ∈ slots, x.toNat < S.length) :
    Clean (S.peekAll slots) := by
  induction slots with
  | nil => exact .ok _
  | cons x slots ih =>
    have hx : S.peek x.toNat = .ok _ :=
      Stack.peek_eq_ok.mpr (List.getElem?_eq_getElem (hs x List.mem_cons_self))
    rw [peekAll, hx]
    refine (Clean.ok _).bind fun _ _ => ?_
    exact (ih fun y hy => hs y (List.mem_cons_of_mem _ hy)).bind fun _ _ => .ok _

namespace Run

theorem Safe.callHost {env : Env σ} {f : UInt32} {args : List Value} :
    Safe (callHost env f args) := by
  refine (Safe.ofExcept Program.clean_function).bind fun _ _ _ _ => ?_
  refine Safe.get.bind fun _ _ _ _ => ?_
  refine (Safe.set _).bind fun _ _ _ _ => ?_
  split
  · exact .pure _
  · exact .stop id

end Run

/-- Balanced code is safe on a stack of the height it starts from. -/
theorem Balanced.safe {A : Activation σ} {ip : ℕ} (hc : Balanced (fun h n => n < h) M c h k)
    (hr : ∀ j, Safe (A.rule j)) (hS : S.length = h) : Safe (A.exec ip c S) := by
  have hA : A.StepsAvoid Stop.OfCode (fun h n => n < h) (h + c.length) := by
    constructor
    case fuel => exact id
    case tick => exact fun _ => Safe.tick _ _
    case instr => exact Instr.safe hr
    case test => exact fun ht _ => Safe.ofExcept (Test.clean ht)
    case slots => exact fun hs => Safe.ofExcept (Stack.clean_peekAll hs)
    case call => exact fun _ _ => Safe.callHost
  exact hc.avoids hA le_rfl hS

/-- Each rule passes the check, and its words are no numbers too large for it. -/
structure Program.Checked (p : Program) : Prop where
  passes : ∀ r ∈ p.rules, Code.checkRule r.code = .ok ()
  small : ∀ r ∈ p.rules, r.code.Small

namespace Program.Checked

variable {m : Machine σ}

theorem balanced {p : Program} {r : RuleCode} (hp : p.Checked) (hr : r ∈ p.rules) :
    Balanced (fun h n => n < h) (2 ^ 31 - 1) r.code 0 1 :=
  .of_checkRule (hp.small r hr) (hp.passes r hr)

/-- Rules that pass the check may call one another to any depth. -/
theorem rule_safe (hp : m.program.Checked) (input : String) (depth i : ℕ) :
    Safe (Run.rule (m.env input) m.program.load m.fuel depth i) := by
  induction depth generalizing i with
  | zero =>
    rw [Run.rule]
    split
    · exact .stop id
    · exact .stop id
  | succ depth ih =>
    cases hi : m.program.rules[i]? with
    | none =>
      have hl : m.program.load[i]? = none := by
        rw [Program.load, List.getElem?_map, hi]
        rfl
      rw [Run.rule, hl]
      exact .stop id
    | some r =>
      have hbal := hp.balanced (List.mem_of_getElem? hi)
      rw [m.rule_eq input depth hi]
      refine (hbal.safe ih rfl).bind fun s S t h => ?_
      obtain ⟨v, rfl⟩ := List.length_eq_one_iff.mp (hbal.length_eq rfl h)
      exact .pure v

/-- A program that passes the check does not go wrong: no run of it stops with a fault of the code,
and the code of each rule that comes to its end has put a value on the stack of the rule. -/
theorem run_safe (hp : m.program.Checked) (input : String) :
    (∀ i s x t, m.run i input s = .error x t → ¬x.OfCode) ∧
    ∀ r ∈ m.program.rules, ∀ depth s S t,
      (m.activation input depth r.name).exec 0 r.code [] s = .ok S t → S.length = 1 := by
  constructor
  · intro i
    refine (Safe.modify _).bind fun _ _ _ _ => ?_
    refine (hp.rule_safe input m.limits.callDepth i).bind fun _ _ _ _ => ?_
    exact Safe.get.bind fun _ _ _ _ => .pure _
  · intro r hr depth s S t h
    exact (hp.balanced hr).length_eq rfl h

/-- The first rule takes no place for one, which the check does not see. -/
theorem run_safe_misplaced :
    let m : Machine Unit := ⟨⟨[⟨"r", [25, 1, 3, 1]⟩, ⟨"s", [1, 0, 0, 5]⟩], [.null]⟩, .none, {}, 0⟩
    m.program.Checked ∧
      (∃ x t, m.run 0 "" (.start ()) = .error x t ∧ x = .fault (.typeError .pos .null) ∧
        ¬x.OfCode) ∧
      ∃ S t, (m.activation "" 0 "s").exec 0 [1, 0, 0, 5] [] (.start ()) = .ok S t ∧
        S.length = 1 := by
  intro m
  have hp : m.program.Checked := ⟨by decide +kernel, by decide⟩
  have hs : Block.read 0 [1, 0, 0, 5] = .instr 0 .pushPos (.instr 1 (.push 0)
      (.instr 3 .nip .done)) := by decide +kernel
  have hl : m.program.load = [⟨"r", .instr 0 (.rule 1) (.instr 2 .popPos
      (.instr 3 .pushPos .done))⟩, ⟨"s", Block.read 0 [1, 0, 0, 5]⟩] := by
    decide +kernel
  have hr : ∃ t, m.run 0 "" (.start ()) = .error (.fault (.typeError .pos .null)) t := by
    rw [Machine.run, hl, hs]
    exact ⟨_, rfl⟩
  have ha : ∃ t, (m.activation "" 0 "s").exec 0 [1, 0, 0, 5] [] (.start ()) = .ok [.null] t := by
    rw [Activation.exec, hs]
    exact ⟨_, rfl⟩
  obtain ⟨t, hr⟩ := hr
  obtain ⟨t', ha⟩ := ha
  have hsafe := hp.run_safe ""
  have hmem : ⟨"s", [1, 0, 0, 5]⟩ ∈ m.program.rules := by decide
  exact ⟨hp, ⟨_, t, hr, rfl, hsafe.1 _ _ _ _ hr⟩, _, t', ha, hsafe.2 _ hmem _ _ _ _ ha⟩

end Program.Checked
end PegMachine
