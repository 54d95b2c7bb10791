import PegMachine.Proofs.Machine.Room
import PegMachine.Proofs.Semantics.Advance
import PegMachine.Proofs.Semantics.LeftRecursion

/-! Runs end without a limit on their instructions. In the program of a guarded grammar every loop comes
to an end, and the limit on the depth of rules sees to the recursion: where that has no end, as in a
left-recursive rule, the run is stopped by this limit. -/
namespace PegMachine

variable {σ : Type} {g : Grammar} {p : Program} {verify : Bool} {H : Host σ} {limits : Limits}
  {i : ℕ} {input : String} {s : State σ}

open Walk

/-- What follows a walk runs out of passes only where the walk does. -/
theorem Ending.ne_fuel_of_matches {x : EStateM.Result Stop (State σ) Value}
    {y : EStateM.Result Stop (Progress σ) Value} (hm : Matches H Eq x y)
    (hy : ∀ t, y ≠ .error .fuel t) (h : σ) : Ending.of State.toProgress x ≠ .stops .fuel h := by
  intro he
  cases hm with
  | ok => cases he
  | limit hx =>
    obtain ⟨rfl, -⟩ := Ending.stops.inj he
    exact hx
  | fuel => exact hy _ rfl
  | host => cases he

namespace Grammar

/-- In a guarded grammar a rule follows a walk that goes on, to whatever depth. -/
theorem Makes.follows_advances (env : Env σ) (hg : g.Makes env.program) (hguard : g.Guarded)
    {fuel : ℕ} (hf : env.input.size + UInt32.size ≤ fuel) (d : ℕ) (hi : i < g.rules.length) :
    ∃ (w : Walk σ Value) (P : Prop), Follows env.host (Run.rule env env.program.load fuel d i) w Eq ∧
      Advances env.input.size P w := by
  let Q : Option ℕ → Walk σ Value → Prop := fun j w =>
    Advances env.input.size (∃ i r, j = some i ∧ g.rules[i]? = some r ∧ g.Nullable r.body) w
  have hzero : ∀ j, ∃ w, Q j w := fun j => ⟨throw (.fault (.ruleIndex 0)), fun p _ => .throw nofun⟩
  have hsucc : ∀ i r wrule, g.rules[i]? = some r → (∀ name, Q (g.ruleIndex? name) (wrule name)) →
      Q (some i) (r.body.walk ⟨env.host, env.input⟩ fuel wrule []) := by
    intro i r wrule hr hnamed
    have hrule : ∀ name, Advances env.input.size (g.Nullable (.rule name)) (wrule name) := by
      intro name
      apply (hnamed name).mono
      rintro ⟨j, r', hj, hr', hn⟩
      exact .rule hj hr' hn
    have hbody := r.body.advances ⟨env.host, env.input⟩ hrule hf
      (hguard r (List.mem_of_getElem? hr)) []
    exact hbody.mono fun hn => ⟨i, r, rfl, hr, hn⟩
  obtain ⟨w, hw, hadv⟩ := hg.exists_follows env fuel hzero hsucc d hi
  exact ⟨w, _, hw, hadv⟩

/-- A run of the program of a guarded grammar ends, whatever its limits are. -/
theorem Makes.ends (hg : g.Makes p) (hguard : g.Guarded) (H : Host σ) (limits : Limits) (i : ℕ)
    (input : String) (s : State σ) : ∃ r, p.Ends H limits i input s r := by
  let m : Machine σ := ⟨p, H, limits, (Input.ofString input).size + UInt32.size⟩
  refine ⟨m.ending i input s, ?_, m.fuel, rfl⟩
  rw [Machine.ending_eq]
  by_cases hi : i < g.rules.length
  · obtain ⟨w, P, hw, hadv⟩ := Makes.follows_advances (m.env input) hg hguard le_rfl
      limits.callDepth hi
    apply Ending.ne_fuel_of_matches (hw (.start s.host))
    intro t ht
    have hland := hadv 0 (Nat.zero_le _) (State.start s.host).toProgress rfl
    rw [ht] at hland
    exact hland rfl
  · intro h he
    rw [Run.rule, hg.load_eq_none hi] at he
    cases he

/-- The code of each rule leads from an empty stack to the value of the rule. -/
theorem Makes.balanced (hg : g.Makes p) : ∀ c ∈ p.rules, ∃ ok M, Balanced ok M c.code 0 1 := by
  intro c hc
  obtain ⟨i, hi, rfl⟩ := List.getElem_of_mem hc
  have hr : i < g.rules.length := hg.length_eq ▸ hi
  obtain ⟨-, hshape⟩ := hg.shapes.get hr hi
  exact ⟨_, _, hshape.balanced 0⟩

/-- With room on the stacks and no limit on instructions, a run that meets a limit has gone too deep. -/
theorem Makes.ends_deep (hg : g.Makes p) (hsteps : limits.steps = none)
    (hroom : ∀ c ∈ p.rules, c.code.length ≤ limits.stack) {r : Ending σ}
    (hr : p.Ends H limits i input s r) (hl : r.AtLimit) :
    ∃ name h, r = .stops (.fault (.callDepth limits.callDepth name)) h := by
  obtain ⟨-, fuel, rfl⟩ := hr
  exact Machine.atLimit_ending hsteps hroom hg.balanced hl

/-- In a guarded grammar every run ends, whatever its limits are. If the stacks have room for the code
of the rules and instructions are not limited, a run of a left-recursive rule, or of any other rule whose
walk has no end, is stopped by the limit on the depth of rules. -/
theorem generate_terminates (hg : g.generate verify = .ok p) (hguard : g.Guarded) (H : Host σ)
    (limits : Limits) (i : ℕ) (input : String) (s : State σ) :
    (∃ r, p.Ends H limits i input s r) ∧
      (limits.steps = none → (∀ c ∈ p.rules, c.code.length ≤ limits.stack) →
        (g.LeftRecursive i ∨ ∀ r, ¬g.Ends H i input s.host r) →
        ∃ name h, p.Ends H limits i input s (.stops (.fault (.callDepth limits.callDepth name)) h)) := by
  have hmakes := generate_makes hg
  obtain ⟨r, hr⟩ := hmakes.ends hguard H limits i input s
  refine ⟨⟨r, hr⟩, fun hsteps hroom hdeep => ?_⟩
  have hl : r.AtLimit := by
    rcases hdeep with hleft | hnone
    · obtain ⟨-, fuel, rfl⟩ := hr
      exact hmakes.atLimit_of_leftRecursive hleft H limits fuel input s
    · rcases hmakes.endsAs H limits i input s with ⟨r', hl, h⟩ | h
      · obtain rfl := (h r).mp hr
        exact hl
      · exact absurd ((h r).mp hr) (hnone r)
  obtain ⟨name, h, rfl⟩ := hmakes.ends_deep hsteps hroom hr hl
  exact ⟨name, h, hr⟩

/-- Sums whose first operand is a sum, and pairs whose first letter may be missing. -/
theorem generate_terminates_sum :
    let pair : Expr := .sequence [.optional .any, .any]
    let g : Grammar := ⟨[⟨"sum", .choice [.sequence [.rule "sum", .any], .any]⟩,
      ⟨"pairs", .zeroOrMore pair⟩]⟩
    ∃ p, g.generate true = .ok p ∧ g.Guarded ∧ g.LeftRecursive 0 ∧
      (∀ c ∈ p.rules, c.code.length ≤ 10000) ∧
      (∃ r, p.Ends (σ := Unit) .none {} 1 "abc" (.start ()) r) ∧
      ∃ name h, p.Ends (σ := Unit) .none {} 0 "abc" (.start ())
        (.stops (.fault (.callDepth 1000 name)) h) := by
  intro pair g
  let sum : Code := [1, 25, 0, 11, 18, 4, 15, 2, 2, 19, 1, 21, 1, 11, 3, 5, 7, 2, 5, 4, 2, 3, 0, 0, 2,
    3, 0, 0, 10, 8, 0, 2, 15, 2, 2, 19, 1, 21, 1]
  let pairCode : Code := [1, 15, 2, 2, 19, 1, 21, 1, 10, 3, 0, 2, 0, 3, 11, 18, 4, 15, 2, 2, 19, 1,
    21, 1, 11, 3, 5, 7, 2, 5, 4, 2, 3, 0, 0, 2, 3, 0, 0]
  let p : Program := ⟨[⟨"sum", sum⟩, ⟨"pairs", [0, 2] ++ pairCode ++ [14, 40, 6] ++ pairCode ++ [2]⟩],
    [.failed, .expectation .anyChar, .emptyArray, .null]⟩
  have hg : g.generate true = .ok p := by decide +kernel
  have hguard : g.Guarded := by
    have hpair : ¬g.Nullable (.sequence [.optional .any, .any]) := by
      intro h
      cases h with
      | sequence h => cases h .any (by simp)
    intro r hr d hd rep hrep _
    simp only [g, List.mem_cons, List.not_mem_nil, or_false] at hr
    rcases hr with rfl | rfl
    · simp only [Expr.preorder, Expr.preorderAll, List.mem_cons, List.mem_append,
        List.not_mem_nil, or_false] at hd
      rcases hd with rfl | (rfl | rfl | rfl) | rfl <;> cases hrep
    · simp only [pair, Expr.preorder, Expr.preorderAll, List.mem_cons, List.mem_append,
        List.not_mem_nil, or_false] at hd
      rcases hd with rfl | rfl | (rfl | rfl) | rfl <;> cases hrep
      exact hpair
  have hleft : g.LeftRecursive 0 := by
    refine ⟨0, .refl, .single ⟨_, "sum", rfl, ?_, rfl⟩⟩
    exact .part rfl (.part rfl .rule)
  have hroom : ∀ c ∈ p.rules, c.code.length ≤ 10000 := by decide
  exact ⟨p, hg, hguard, hleft, hroom, (generate_terminates hg hguard .none {} 1 "abc" (.start ())).1,
    (generate_terminates hg hguard .none {} 0 "abc" (.start ())).2 rfl hroom (.inl hleft)⟩

/-- Left recursion does not end at the limit on depth in any case: a stack may be too small for the
rule, and an alternative that leads back is not tried where one before it matches. -/
theorem leftRecursive_not_deep :
    let g : Grammar := ⟨[⟨"start", .sequence [.rule "start"]⟩]⟩
    let g' : Grammar := ⟨[⟨"start", .choice [.literal "x" false, .rule "start"]⟩]⟩
    (∃ p, g.generate true = .ok p ∧ g.Guarded ∧ g.LeftRecursive 0 ∧
      ∀ r, p.Ends (σ := Unit) .none { stack := 0 } 0 "a" (.start ()) r ↔
        r = .stops (.fault (.stackLimit 0)) ()) ∧
    ∃ p, g'.generate true = .ok p ∧ g'.Guarded ∧
      ∀ r, p.Ends (σ := Unit) .none {} 0 "x" (.start ()) r ↔ r = .returns ⟨.string "x", 1, {}⟩ () := by
  intro g g'
  constructor
  · let p : Program := ⟨[⟨"start", [1, 25, 0, 11, 3, 4, 7, 1, 5, 2, 3, 0, 0]⟩], [.failed]⟩
    have hl : p.load = [⟨"start", .instr 0 .pushPos (.instr 1 (.rule 0) (.branch 3 .isMatched 3 4
        (.instr 6 (.wrap 1) (.instr 8 .nip .done))
        (.instr 9 .pop (.instr 10 .popPos (.instr 11 (.push 0) .done))) .done))⟩] := by
      decide +kernel
    have hguard : g.Guarded := guarded_of_all rfl
    have hr : (Machine.mk p (.none : Host Unit) { stack := 0 } 0).ending 0 "a" (.start ()) =
        .stops (.fault (.stackLimit 0)) () := by
      rw [Machine.ending_eq, hl]
      rfl
    have hends : p.Ends .none { stack := 0 } 0 "a" (.start ()) _ := ⟨by simp, 0, hr⟩
    refine ⟨p, by decide +kernel, hguard, ?_, fun r => ⟨fun h => p.ends_unique h hends, ?_⟩⟩
    · exact ⟨0, .refl, .single ⟨_, "start", rfl, .part rfl .rule, rfl⟩⟩
    · rintro rfl
      exact hends
  · let p : Program := ⟨[⟨"start", [16, 0, 2, 2, 20, 0, 21, 1, 10, 3, 0, 2, 25, 0]⟩],
      [.string "x", .expectation (.ofLiteral "x")]⟩
    have hl : p.load = [⟨"start", .branch 0 (.string 0) 2 2 (.instr 4 (.acceptString 0) .done)
        (.instr 6 (.fail 1) .done) (.branch 8 .isFailed 3 0
          (.instr 11 .pop (.instr 12 (.rule 0) .done)) .done .done)⟩] := by
      decide +kernel
    have hguard : g'.Guarded := guarded_of_all rfl
    have hr : (Machine.mk p (.none : Host Unit) {} 0).ending 0 "x" (.start ()) =
        .returns ⟨.string "x", 1, {}⟩ () := by
      rw [Machine.ending_eq, hl]
      rfl
    have hends : p.Ends .none {} 0 "x" (.start ()) _ := ⟨by simp, 0, hr⟩
    refine ⟨p, by decide +kernel, hguard, fun r => ⟨fun h => p.ends_unique h hends, ?_⟩⟩
    rintro rfl
    exact hends

end Grammar
end PegMachine
