import PegMachine.Proofs.Compile.Productive
import PegMachine.Proofs.Machine.Frame
import PegMachine.Proofs.Semantics.Agreement

/-! The limit on instructions. It bounds how many are counted in any run. It ends a run, too, if each
pass of a loop counts at least one: a loop whose body is empty is not counted while it goes round. -/
namespace PegMachine

variable {σ α β : Type} {n k j : ℕ} {P : Prop} {s : State σ} {S : Stack} {limits : Limits}

/-- A part of a run under the limit `n` that has ended with a count of `k` to `n` instructions, or has
been stopped by the next one at the latest. It has run out of passes only if `P`. -/
def Within (n : ℕ) (P : Prop) (k : ℕ) : EStateM.Result Stop (State σ) α → Prop
  | .ok _ t => k ≤ t.steps ∧ t.steps ≤ n
  | .error x t => t.steps ≤ n + 1 ∧ (x = .fuel → P)

namespace Within

theorem bind {f : Run σ α} {f' : α → Run σ β} (hf : Within n P k (f s))
    (hk : ∀ a t, k ≤ t.steps → t.steps ≤ n → Within n P j (f' a t)) :
    Within n P j ((f >>= f') s) := by
  change Within n P j (EStateM.bind f f' s)
  unfold EStateM.bind
  cases hr : f s with
  | ok a t =>
    rw [hr] at hf
    exact hk a t hf.1 hf.2
  | error x t =>
    rw [hr] at hf
    exact hf

theorem pure {a : α} (hs : s.steps ≤ n) : Within n P s.steps ((pure a : Run σ α) s) :=
  ⟨le_rfl, hs⟩

theorem fault {f : Fault} (hs : s.steps ≤ n) : Within n P k ((Run.fault f : Run σ α) s) := by
  constructor
  · exact Nat.le_succ_of_le hs
  · intro h
    cases h

theorem mono {r : EStateM.Result Stop (State σ) α} (h : Within n P k r) (hj : j ≤ k) :
    Within n P j r := by
  cases r with
  | ok a t => exact ⟨hj.trans h.1, h.2⟩
  | error x t => exact h

theorem of_keeps {f : Run σ α} (hf : f.Keeps State.steps) (hs : s.steps ≤ n) :
    Within n P s.steps (f s) := by
  cases hr : f s with
  | ok a t =>
    have ht := hf.ok hr
    exact ⟨ht.ge, ht.trans_le hs⟩
  | error x t =>
    obtain ⟨ht, hx⟩ := hf.error hr
    refine ⟨by omega, ?_⟩
    rintro rfl
    exact hx.elim

theorem tick (hn : limits.steps = some n) (S : Stack) (hs : s.steps ≤ n) :
    Within n P (s.steps + 1) (Run.tick limits S s) := by
  rcases Run.tick_cases limits S s with h | ⟨x, hx, h⟩
  · have hle : s.steps + 1 ≤ n := (Run.tick_eq_ok_iff.mp h).2.1 n hn
    rw [h]
    exact ⟨le_rfl, hle⟩
  · rw [h]
    refine ⟨Nat.succ_le_succ hs, ?_⟩
    rintro rfl
    exact hx.elim

/-- A loop whose passes count `k` instructions each has passes enough if there are more of them than
instructions are left. -/
theorem whileMatched {body : Stack → Run σ Stack} {fuel : ℕ}
    (hb : ∀ S s, s.steps ≤ n → Within n P (s.steps + k) (body S s)) (hs : s.steps ≤ n)
    (hf : P ∨ 0 < k ∧ n < s.steps + fuel) : Within n P s.steps (Run.whileMatched body fuel S s) := by
  induction fuel generalizing S s with
  | zero =>
    rw [Run.whileMatched]
    refine (of_keeps (.ofExcept Stack.operation_top) hs).bind fun v t ht htn => ?_
    split
    · exact (Within.pure htn).mono ht
    · refine ⟨Nat.le_succ_of_le htn, fun _ => hf.resolve_right ?_⟩
      omega
  | succ fuel ih =>
    rw [Run.whileMatched]
    refine (of_keeps (.ofExcept Stack.operation_top) hs).bind fun v t ht htn => ?_
    split
    · exact (Within.pure htn).mono ht
    · refine (hb S t htn).bind fun S' u hu hun => (ih hun ?_).mono (by omega)
      exact hf.imp id fun h => ⟨h.1, by omega⟩

end Within

open Run

section

variable {env : Env σ} {rule : ℕ → Run σ Value} {fuel : ℕ} {name : String}

theorem Instr.within (hr : ∀ i s, s.steps ≤ n → Within n P s.steps (rule i s)) (i : Instr)
    (S : Stack) (hs : s.steps ≤ n) : Within n P s.steps (i.run env rule S s) := by
  cases i with
  | rule j =>
    refine (hr j.toNat s hs).bind fun v t ht htn => ?_
    exact (Within.pure htn).mono ht
  | _ => exact .of_keeps (keeps_steps (by simp)) hs

/-- Each stretch of code keeps to the limit, whatever code it is. -/
theorem Block.within (hn : env.limits.steps = some n)
    (hr : ∀ i s, s.steps ≤ n → Within n P s.steps (rule i s)) (b : Block)
    (hb : P ∨ b.Productive ∧ n < fuel) (S : Stack) (hs : s.steps ≤ n) :
    Within n P (s.steps + b.least) (b.run env fuel rule name S s) := by
  induction b generalizing S s with
  | done =>
    rw [run]
    exact .pure hs
  | unknown | branchOverrun | loopOverrun =>
    rw [run]
    exact (Within.tick hn S hs).bind fun _ t ht htn => .fault htn
  | truncated ip op slots =>
    rw [run]
    refine (Within.tick hn S hs).bind fun _ t ht htn => ?_
    refine (Within.of_keeps (.ofExcept Stack.operation_peekAll) htn).bind fun _ u _ hun => ?_
    exact .fault hun
  | instr ip i rest ih =>
    rw [run]
    refine (Within.tick hn S hs).bind fun _ t ht htn => ?_
    refine (i.within hr S htn).bind fun S' u hu hun => ?_
    exact (ih hb S' hun).mono (by rw [least]; omega)
  | branch ip t m l yes no rest ihy ihn ih =>
    rw [run]
    refine (Within.tick hn S hs).bind fun _ s₁ h₁ hn₁ => ?_
    refine (Within.of_keeps .get hn₁).bind fun _ s₂ h₂ hn₂ => ?_
    refine (Within.of_keeps (.ofExcept t.operation_holds) hn₂).bind fun x s₃ h₃ hn₃ => ?_
    obtain ⟨answer, T⟩ := x
    have hrest : ∀ S' u, s₃.steps ≤ u.steps → u.steps ≤ n →
        Within n P (s.steps + 1) (rest.run env fuel rule name S' u) := by
      intro S' u hu hun
      exact (ih (hb.imp id fun h => ⟨h.1.2.2, h.2⟩) S' hun).mono (by omega)
    cases answer with
    | true =>
      have hyes := ihy (hb.imp id fun h => ⟨h.1.1, h.2⟩) T hn₃
      exact (hyes.mono (Nat.le_add_right _ _)).bind hrest
    | false =>
      have hno := ihn (hb.imp id fun h => ⟨h.1.2.1, h.2⟩) T hn₃
      exact (hno.mono (Nat.le_add_right _ _)).bind hrest
  | loop ip l body rest ihb ih =>
    rw [run]
    refine (Within.tick hn S hs).bind fun _ t ht htn => ?_
    have hbody : ∀ S s, s.steps ≤ n →
        Within n P (s.steps + body.least) (body.run env fuel rule name S s) :=
      fun S s hs => ihb (hb.imp id fun h => ⟨h.1.2.1, h.2⟩) S hs
    refine (Within.whileMatched hbody htn ?_).bind fun S' u hu hun => ?_
    · exact hb.imp id fun h => ⟨h.1.1, by omega⟩
    · exact (ih (hb.imp id fun h => ⟨h.1.2.2, h.2⟩) S' hun).mono (by rw [least]; omega)
  | call ip f pops slots rest ih =>
    rw [run]
    refine (Within.tick hn S hs).bind fun _ s₁ h₁ hn₁ => ?_
    refine (Within.of_keeps (.ofExcept Stack.operation_peekAll) hn₁).bind fun args s₂ h₂ hn₂ => ?_
    refine (Within.of_keeps (keeps_callHost.map Prod.snd) hn₂).bind fun v s₃ h₃ hn₃ => ?_
    refine (Within.of_keeps (.ofExcept Stack.operation_popN) hn₃).bind fun T s₄ h₄ hn₄ => ?_
    exact (ih hb _ hn₄).mono (by rw [least]; omega)

end

/-- Rules keep to the limit to whatever depth they call one another. -/
theorem Run.within_rule (env : Env σ) {rules : List LoadedRule} {fuel : ℕ}
    (hn : env.limits.steps = some n)
    (hp : P ∨ (∀ r ∈ rules, r.body.Productive) ∧ n < fuel) (depth i : ℕ) (hs : s.steps ≤ n) :
    Within n P s.steps (Run.rule env rules fuel depth i s) := by
  induction depth generalizing i s with
  | zero =>
    rw [Run.rule]
    cases rules[i]? with
    | none => exact .fault hs
    | some r => exact .fault hs
  | succ depth ih =>
    rw [Run.rule]
    cases hr : rules[i]? with
    | none => exact .fault hs
    | some r =>
      have hb : P ∨ r.body.Productive ∧ n < fuel :=
        hp.imp id fun h => ⟨h.1 r (List.mem_of_getElem? hr), h.2⟩
      refine (r.body.within hn (fun i s hs => ih i hs) hb [] hs).bind fun S t ht htn => ?_
      exact (Within.of_keeps (.ofExcept Stack.operation_top) htn).mono (by omega)

theorem Machine.within_run (m : Machine σ) (hn : m.limits.steps = some n)
    (hp : P ∨ m.program.Productive ∧ n < m.fuel) (i : ℕ) (input : String) (s : State σ) :
    Within n P 0 (m.run i input s) := by
  have hzero : (State.start s.host).steps ≤ n := Nat.zero_le n
  have hload : P ∨ (∀ r ∈ m.program.load, r.body.Productive) ∧ n < m.fuel := by
    refine hp.imp id fun h => ⟨fun r hr => ?_, h.2⟩
    obtain ⟨c, hc, rfl⟩ := List.mem_map.mp hr
    exact h.1 c hc
  have hrule := Run.within_rule (m.env input) hn hload m.limits.callDepth i hzero
  exact hrule.bind fun v t _ ht => ⟨Nat.zero_le _, ht⟩

namespace Program

variable {p : Program} {H : Host σ}

/-- No run of a program counts more than `n` instructions before the one that stops it. It ends, too, if
each pass of a loop in the program counts one, as in the program of a grammar. -/
theorem ends_within (hn : limits.steps = some n) (i : ℕ) (input : String) (s : State σ) :
    (∀ fuel o t, (Machine.mk p H limits fuel).run i input s = .ok o t → t.steps ≤ n) ∧
    (∀ fuel x t, (Machine.mk p H limits fuel).run i input s = .error x t → t.steps ≤ n + 1) ∧
    (p.Productive ∨ (∃ g verify, Grammar.generate verify g = .ok p) →
      ∃ r, p.Ends H limits i input s r) := by
  refine ⟨fun fuel o t h => ?_, fun fuel x t h => ?_, fun hp => ?_⟩
  · have hw := (Machine.mk p H limits fuel).within_run hn (.inl trivial) i input s
    rw [h] at hw
    exact hw.2
  · have hw := (Machine.mk p H limits fuel).within_run hn (.inl trivial) i input s
    rw [h] at hw
    exact hw.1
  · have hprod : p.Productive := by
      rcases hp with hp | ⟨g, verify, hg⟩
      · exact hp
      · exact (g.generate_makes hg).productive
    have hw := (Machine.mk p H limits (n + 1)).within_run (P := False) hn
      (.inr ⟨hprod, Nat.lt_succ_self n⟩) i input s
    refine ⟨_, ?_, n + 1, rfl⟩
    intro h he
    unfold Machine.ending at he
    split at he
    · cases he
    · next x t hr =>
      obtain ⟨rfl, -⟩ := Ending.stops.inj he
      rw [hr] at hw
      exact hw.2 rfl

/-- The code of letters is stopped at its fourth instruction. -/
theorem ends_within_letters :
    let g : Grammar := ⟨[⟨"letters", .zeroOrMore .any⟩]⟩
    let limits : Limits := { steps := some 3 }
    ∃ p, Grammar.generate true g = .ok p ∧ limits.steps = some 3 ∧
      p.Ends (σ := Unit) .none limits 0 "ab" (.start ()) (.stops (.fault (.stepLimit 3)) ()) ∧
      ∃ r, p.Ends (σ := Unit) .none limits 0 "ab" (.start ()) r := by
  intro g limits
  let letters : Code := [0, 0, 15, 2, 2, 19, 1, 21, 1, 14, 8, 6, 15, 2, 2, 19, 1, 21, 1, 2]
  let p : Program := ⟨[⟨"letters", letters⟩], [.emptyArray, .expectation .anyChar]⟩
  have hg : g.generate true = .ok p := by decide +kernel
  have hl : p.load = [⟨"letters", .instr 0 (.push 0) (.branch 2 .any 2 2
      (.instr 5 (.acceptN 1) .done) (.instr 7 (.fail 1) .done) (.loop 9 8
        (.instr 11 .append (.branch 12 .any 2 2 (.instr 15 (.acceptN 1) .done)
          (.instr 17 (.fail 1) .done) .done)) (.instr 19 .pop .done)))⟩] := by
    decide +kernel
  have hr : (Machine.mk p (.none : Host Unit) limits 0).ending 0 "ab" (.start ()) =
      .stops (.fault (.stepLimit 3)) () := by
    rw [Machine.ending_eq, hl]
    rfl
  exact ⟨p, hg, rfl, ⟨by simp, 0, hr⟩, (ends_within rfl 0 "ab" (.start ())).2.2 (.inr ⟨g, true, hg⟩)⟩

end Program

/-- A loop without a body goes round for as long as it may. -/
theorem Run.whileMatched_pure {v : Value} (hv : v.isFailed = false) (fuel : ℕ) :
    Run.whileMatched Pure.pure fuel (v :: S) s = .error .fuel s := by
  induction fuel with
  | zero =>
    change (if v.isFailed then _ else _ : Run σ Stack) s = _
    rw [hv]
    rfl
  | succ fuel ih =>
    change (if v.isFailed then _ else _ : Run σ Stack) s = _
    rw [hv]
    exact ih

/-- The limit does not end every run: the checker accepts a loop without a body, and under a limit of
ten instructions the loop goes round for ever. -/
theorem Program.spin_never_ends :
    let spin : Code := [0, 0, 14, 0]
    let p : Program := ⟨[⟨"spin", spin⟩], [.null]⟩
    Code.checkRule spin = .ok () ∧ ∀ r, ¬p.Ends (σ := Unit) .none { steps := some 10 } 0 ""
      (.start ()) r := by
  intro spin p
  have hl : p.load = [⟨"spin", .instr 0 (.push 0) (.loop 2 0 .done .done)⟩] := by decide +kernel
  refine ⟨by decide +kernel, ?_⟩
  rintro r ⟨hr, fuel, he⟩
  rw [Machine.ending_eq, hl] at he
  -- the loop starts after two instructions
  have hloop : Run.whileMatched Pure.pure fuel [.null] ⟨.start (), 0, 2⟩ = .error .fuel _ :=
    Run.whileMatched_pure (σ := Unit) rfl fuel
  have hrun : ∃ (k : Stack → Run Unit Stack) (l : Stack → Run Unit Value),
      Run.rule ((Machine.mk p .none { steps := some 10 } fuel).env "")
        [⟨"spin", .instr 0 (.push 0) (.loop 2 0 .done .done)⟩] fuel 1000 0 (.start ()) =
      EStateM.bind (EStateM.bind (Run.whileMatched Pure.pure fuel [.null]) k) l
        ⟨.start (), 0, 2⟩ := ⟨_, _, rfl⟩
  obtain ⟨k, l, hk⟩ := hrun
  apply hr ()
  rw [← he]
  change Ending.of State.toProgress (Run.rule _ _ fuel 1000 0 (.start ())) = _
  rw [hk, EStateM.bind, EStateM.bind, hloop]
  rfl

end PegMachine
