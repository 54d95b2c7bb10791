import PegMachine.Proofs.Semantics.Ending
import PegMachine.Proofs.Semantics.Program

/-! The program of a grammar and the grammar end in the same way, and the program does not go
wrong. -/
namespace PegMachine

variable {σ : Type} {g : Grammar} {p : Program} {verify : Bool} {H : Host σ} {limits : Limits}
  {i : ℕ} {input : String} {s : State σ} {r : Ending σ}

/-- A call that the host is asked for. -/
structure HostCall where
  function : ActionFn
  context : CallContext
  args : List Value

/-- The host that records the calls it is asked for, in their order. -/
def Host.recorded (H : Host σ) : Host (σ × List HostCall) := fun f context args s =>
  let (answer, h) := H f context args s.1
  (answer, h, s.2 ++ [⟨f, context, args⟩])

/-- A fault of the recording host is the answer of the host to the last call on record. -/
theorem Host.refuses_recorded {f : Fault} {h : σ} {calls : List HostCall}
    (hr : H.recorded.Refuses f (h, calls)) :
    ∃ before c h', calls = before ++ [c] ∧ H c.function c.context c.args h' = (.error f, h) := by
  obtain ⟨fn, context, args, ⟨h', before⟩, hr⟩ := hr
  obtain ⟨ha, hs⟩ := Prod.mk.inj hr
  obtain ⟨hh, rfl⟩ := Prod.mk.inj hs
  exact ⟨before, ⟨fn, context, args⟩, h', rfl, Prod.ext ha hh⟩

namespace Ending

/-- The machine itself has found no fault: there is a result, or a limit is met, or the host has
refused a call. -/
def Sound (H : Host σ) : Ending σ → Prop
  | .returns _ _ => True
  | .stops (.host f) h => H.Refuses f h
  | .stops x _ => x.AtLimit

theorem Sound.cases (hr : r.Sound H) :
    (∃ o h, r = .returns o h) ∨ r.AtLimit ∨ ∃ f h, r = .stops (.host f) h ∧ H.Refuses f h := by
  cases r with
  | returns o h => exact .inl ⟨o, h, rfl⟩
  | stops x h =>
    cases x with
    | fault f => exact .inr (.inl hr)
    | host f => exact .inr (.inr ⟨f, h, rfl, hr⟩)
    | fuel => exact hr.elim

/-- What follows a walk meets a limit, or ends as the walk does. -/
theorem of_matches {x : EStateM.Result Stop (State σ) Value}
    {y : EStateM.Result Stop (Progress σ) Value} (h : Matches H Eq x y) :
    (Ending.of State.toProgress x).AtLimit ∨ Ending.of State.toProgress x = .of id y := by
  cases h with
  | ok h =>
    subst h
    exact .inr rfl
  | limit h => exact .inl h
  | fuel => exact .inr rfl
  | host h => exact .inr rfl

theorem sound_of_matches {x : EStateM.Result Stop (State σ) Value}
    {y : EStateM.Result Stop (Progress σ) Value} (h : Matches H Eq x y)
    (hr : ∀ h, Ending.of State.toProgress x ≠ .stops .fuel h) :
    (Ending.of State.toProgress x).Sound H := by
  cases h with
  | ok h => trivial
  | @limit x t r h =>
    cases x with
    | fault f => exact h
    | host f => exact h.elim
    | fuel => exact h.elim
  | fuel => exact absurd rfl (hr _)
  | host h => exact h

end Ending

namespace Grammar

/-- With the same fuel, and depth at least up to its limit, the machine meets a limit or ends as the
walk does. -/
theorem Makes.ending (hg : g.Makes p) (H : Host σ) (limits : Limits) (fuel : ℕ) {depth : ℕ}
    (hd : limits.callDepth ≤ depth) (i : ℕ) (input : String) (s : State σ) :
    ((Machine.mk p H limits fuel).ending i input s).AtLimit ∨
      (Machine.mk p H limits fuel).ending i input s = g.ending H fuel depth i input s.host := by
  rw [Machine.ending_eq]
  by_cases hi : i < g.rules.length
  · exact Ending.of_matches (Makes.follows ⟨p, H, limits, .ofString input⟩ hg fuel hd hi _)
  · right
    rw [Grammar.ending, Grammar.walk, Run.rule, List.getElem?_eq_none (not_lt.mp hi)]
    rw [hg.load_eq_none hi]
    rfl

/-- From whatever state, the program ends at one of its limits or just as the grammar does. -/
def EndsAs (g : Grammar) (p : Program) (H : Host σ) (limits : Limits) (i : ℕ) (input : String) :
    Prop :=
  ∀ s, (∃ r, r.AtLimit ∧ ∀ r', p.Ends H limits i input s r' ↔ r' = r) ∨
    ∀ r, p.Ends H limits i input s r ↔ g.Ends H i input s.host r

theorem Makes.endsAs (hg : g.Makes p) (H : Host σ) (limits : Limits) (i : ℕ) (input : String) :
    g.EndsAs p H limits i input := by
  intro s
  by_cases hl : ∃ r, p.Ends H limits i input s r ∧ r.AtLimit
  · obtain ⟨r, hr, hl⟩ := hl
    refine .inl ⟨r, hl, fun r' => ⟨fun hr' => p.ends_unique hr' hr, ?_⟩⟩
    rintro rfl
    exact hr
  · refine .inr fun r => ⟨?_, ?_⟩
    · rintro ⟨hr, fuel, he⟩
      refine ⟨hr, fuel, limits.callDepth, ?_⟩
      rcases hg.ending H limits fuel le_rfl i input s with h | h
      · rw [he] at h
        exact absurd ⟨r, ⟨hr, fuel, he⟩, h⟩ hl
      · exact h.symm.trans he
    · rintro ⟨hr, fuel, depth, he⟩
      refine ⟨hr, fuel, ?_⟩
      -- the walk may need less depth than the machine is allowed
      have hdeep := ending_fuel hr he le_rfl (le_max_right limits.callDepth depth)
      rcases hg.ending H limits fuel (le_max_left limits.callDepth depth) i input s with h | h
      · refine absurd ⟨_, ⟨fun h' heq => ?_, fuel, rfl⟩, h⟩ hl
        rw [heq] at h
        exact h
      · exact h.trans hdeep

theorem Makes.sound (hg : g.Makes p) (hi : i < g.rules.length)
    (hr : p.Ends H limits i input s r) : r.Sound H := by
  obtain ⟨hr, fuel, rfl⟩ := hr
  rw [Machine.ending_eq] at hr ⊢
  have hf := Makes.follows ⟨p, H, limits, .ofString input⟩ hg fuel (le_refl limits.callDepth) hi
  exact Ending.sound_of_matches (hf _) hr

/-- The program of a grammar does not go wrong: where a run of one of its rules ends, it returns, or
meets a limit, or hands on what the host has answered to its last call. -/
theorem generate_sound (hg : g.generate verify = .ok p) (hi : i < p.rules.length) (H : Host σ)
    (limits : Limits) (input : String) :
    (∀ s r, p.Ends H limits i input s r →
      (∃ o h, r = .returns o h) ∨ r.AtLimit ∨
        ∃ f h, r = .stops (.host f) h ∧ H.Refuses f h) ∧
    ∀ s f h calls, p.Ends H.recorded limits i input s (.stops (.host f) (h, calls)) →
      ∃ before c h', calls = before ++ [c] ∧
        H c.function c.context c.args h' = (.error f, h) := by
  have hmakes := generate_makes hg
  rw [hmakes.length_eq] at hi
  constructor
  · intro s r hr
    exact (hmakes.sound hi hr).cases
  · intro s f h calls hr
    exact Host.refuses_recorded (hmakes.sound hi hr)

/-- The call for a letter is refused, and the refusal is what the run stops with. -/
theorem generate_sound_refused :
    let g : Grammar := ⟨[⟨"letter", .action .any "x"⟩]⟩
    let H : Host Unit := fun _ _ _ h => (.error (.host "no"), h)
    let c : HostCall := ⟨⟨[], "x"⟩, ⟨.ofString "a", 0, 1⟩, []⟩
    ∃ p, g.generate true = .ok p ∧ 0 < p.rules.length ∧
      p.Ends H.recorded {} 0 "a" (.start ((), [])) (.stops (.host (.host "no")) ((), [c])) ∧
      ∃ before d h', [c] = before ++ [d] ∧
        H d.function d.context d.args h' = (.error (.host "no"), ()) := by
  intro g H c
  let letter : Code := [1, 15, 2, 2, 19, 1, 21, 0, 11, 6, 0, 22, 1, 24, 1, 1, 0, 5]
  let p : Program := ⟨[⟨"letter", letter⟩], [.expectation .anyChar, .function ⟨[], "x"⟩]⟩
  have hg : g.generate true = .ok p := by decide +kernel
  have hi : 0 < p.rules.length := Nat.one_pos
  have hl : p.load = [⟨"letter", .instr 0 .pushPos (.branch 1 .any 2 2
      (.instr 4 (.acceptN 1) .done) (.instr 6 (.fail 0) .done) (.branch 8 .isMatched 6 0
        (.instr 11 (.reportSaved 1) (.call 13 1 1 [] .done)) .done (.instr 17 .nip .done)))⟩] := by
    decide +kernel
  have hr : (Machine.mk p H.recorded {} 0).ending 0 "a" (.start ((), [])) =
      .stops (.host (.host "no")) ((), [c]) := by
    rw [Machine.ending_eq, hl]
    rfl
  have hends : p.Ends H.recorded {} 0 "a" (.start ((), [])) _ := ⟨by simp, 0, hr⟩
  exact ⟨p, hg, hi, hends, (generate_sound hg hi H {} "a").2 _ _ _ _ hends⟩

end Grammar
end PegMachine
