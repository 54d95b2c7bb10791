import PegMachine.Proofs.Semantics.Agreement
import PegMachine.Proofs.Semantics.Renumbering

/-! The order of the rules. It decides over the numbers of rules and constants and over nothing else:
the programs of a grammar and of the same rules in another order parse alike, up to the instruction at
which a limit is met. -/
namespace PegMachine

variable {σ : Type} {g g' : Grammar} {p p' : Program} {verify verify' : Bool} {name : String}
  {i j : ℕ} {H : Host σ} {limits : Limits} {input : String}

namespace Grammar

/-- The rule of a name is the same in any order of the rules, if no two of them share a name. -/
theorem exists_ruleIndex?_of_perm (hp : g.rules.Perm g'.rules) (hn : (g.rules.map (·.name)).Nodup)
    (hi : g.ruleIndex? name = some i) :
    ∃ j, g'.ruleIndex? name = some j ∧ g'.rules[j]? = g.rules[i]? := by
  obtain ⟨hlt, hname, -⟩ := List.findIdx?_eq_some_iff_getElem.mp hi
  have hmem : g.rules[i] ∈ g'.rules := hp.mem_iff.mp (List.getElem_mem hlt)
  cases hj : g'.ruleIndex? name with
  | none =>
    have hnone := List.findIdx?_eq_none_iff.mp hj g.rules[i] hmem
    rw [hname] at hnone
    cases hnone
  | some j =>
    obtain ⟨hlt', hname', -⟩ := List.findIdx?_eq_some_iff_getElem.mp hj
    have hmem' : g'.rules[j] ∈ g.rules := hp.mem_iff.mpr (List.getElem_mem hlt')
    have heq : g'.rules[j] = g.rules[i] := by
      refine List.inj_on_of_nodup_map hn hmem' (List.getElem_mem hlt) ?_
      exact (beq_iff_eq.mp hname').trans (beq_iff_eq.mp hname).symm
    refine ⟨j, rfl, ?_⟩
    rw [List.getElem?_eq_getElem hlt', List.getElem?_eq_getElem hlt, heq]

namespace Makes

section

variable (hg : g.Makes p) (hg' : g'.Makes p') (hp : g.rules.Perm g'.rules)
  (hn : (g.rules.map (·.name)).Nodup)

include hg hg' hp hn

/-- The two programs have code for the rule of a name, each its own. -/
theorem exists_codes (hi : g.ruleIndex? name = some i) (hj : g'.ruleIndex? name = some j) :
    ∃ (r : Rule) (c c' : Code), p.load[i]? = some ⟨r.name, Block.read 0 c⟩ ∧
      p'.load[j]? = some ⟨r.name, Block.read 0 c'⟩ ∧
      r.body.Shape p.consts g.ruleIndex? .rule [] c ∧
      r.body.Shape p'.consts g'.ruleIndex? .rule [] c' := by
  obtain ⟨r, c, hr, hc, hname, hshape⟩ := hg.get (ruleIndex?_lt hi)
  obtain ⟨r', c', hr', hc', hname', hshape'⟩ := hg'.get (ruleIndex?_lt hj)
  obtain ⟨j', hj', hsame⟩ := exists_ruleIndex?_of_perm hp hn hi
  obtain rfl := Option.some.inj (hj.symm.trans hj')
  rw [hr, hr'] at hsame
  obtain rfl := Option.some.inj hsame
  rw [hname] at hc
  rw [hname'] at hc'
  exact ⟨r', c.code, c'.code, hc, hc', hshape, hshape'⟩

/-- The rule of a name runs alike in both programs. -/
theorem rule_eq (H : Host σ) (limits : Limits) (input : Input) (fuel depth : ℕ)
    (hi : g.ruleIndex? name = some i) (hj : g'.ruleIndex? name = some j) :
    Run.rule ⟨p, H, limits, input⟩ p.load fuel depth i =
      Run.rule ⟨p', H, limits, input⟩ p'.load fuel depth j := by
  induction depth generalizing name i j with
  | zero =>
    obtain ⟨r, c, c', hc, hc', -, -⟩ := hg.exists_codes hg' hp hn hi hj
    rw [Run.rule, Run.rule, hc, hc']
  | succ depth ih =>
    obtain ⟨r, c, c', hc, hc', hshape, hshape'⟩ := hg.exists_codes hg' hp hn hi hj
    let A : Activation σ := ⟨⟨p, H, limits, input⟩, fuel,
      Run.rule ⟨p, H, limits, input⟩ p.load fuel depth, r.name⟩
    let B : Activation σ := ⟨⟨p', H, limits, input⟩, fuel,
      Run.rule ⟨p', H, limits, input⟩ p'.load fuel depth, r.name⟩
    have hrules (name : String) (i j : ℕ) (hi : g.ruleIndex? name = some i)
        (hj : g'.ruleIndex? name = some j) :
        A.rule (UInt32.ofNat i).toNat = B.rule (UInt32.ofNat j).toNat := by
      rw [hg.toNat_ruleIndex? hi, hg'.toNat_ruleIndex? hj]
      exact ih hi hj
    have halike := r.body.runsAlike (A := A) (B := B) ⟨rfl, rfl, rfl, rfl⟩ hg.consts hg'.consts hrules
    have hexec := (halike .rule [] c c' hshape hshape').exec_eq 0 0 []
    rw [Run.rule, Run.rule, hc, hc']
    change A.exec 0 c [] >>= _ = B.exec 0 c' [] >>= _
    rw [hexec]

/-- Both programs parse alike. -/
theorem parse_eq (H : Host σ) (limits : Limits) (fuel : ℕ) (start input : String) :
    (Machine.mk p H limits fuel).parse start input =
      (Machine.mk p' H limits fuel).parse start input := by
  unfold Machine.parse
  dsimp only
  rw [hg.ruleIndex?_eq, hg'.ruleIndex?_eq]
  cases hi : g.ruleIndex? start with
  | none =>
    cases hj : g'.ruleIndex? start with
    | none => rfl
    | some j =>
      have hn' : (g'.rules.map (·.name)).Nodup := (hp.map _).nodup_iff.mp hn
      obtain ⟨i, hi', -⟩ := exists_ruleIndex?_of_perm hp.symm hn' hj
      rw [hi] at hi'
      cases hi'
  | some i =>
    obtain ⟨j, hj, -⟩ := exists_ruleIndex?_of_perm hp hn hi
    rw [hj]
    have hrun : (Machine.mk p H limits fuel).run i input =
        (Machine.mk p' H limits fuel).run j input := by
      unfold Machine.run
      refine bind_congr fun _ => ?_
      have hrule := hg.rule_eq hg' hp hn H limits (.ofString input) fuel limits.callDepth hi hj
      exact congrArg (· >>= _) hrule
    dsimp only
    rw [hrun]
    rfl

end
end Makes

/-- The order of the rules does not matter to a parse: from whatever state it starts, and with whatever
limits, the program of the same rules in another order returns the same value or stops for the same
reason, after the same number of instructions and in the same state of the host. With a host that
records its calls, the calls are the same too. -/
theorem generate_perm (hg : g.generate verify = .ok p) (hg' : g'.generate verify' = .ok p')
    (hp : g.rules.Perm g'.rules) (hn : (g.rules.map (·.name)).Nodup) (H : Host σ) (limits : Limits)
    (fuel : ℕ) (start input : String) :
    (Machine.mk p H limits fuel).parse start input =
        (Machine.mk p' H limits fuel).parse start input ∧
      (Machine.mk p H.recorded limits fuel).parse start input =
        (Machine.mk p' H.recorded limits fuel).parse start input := by
  have hmakes := generate_makes hg
  have hmakes' := generate_makes hg'
  constructor
  · exact hmakes.parse_eq hmakes' hp hn H limits fuel start input
  · exact hmakes.parse_eq hmakes' hp hn H.recorded limits fuel start input

/-- A list of letters and a letter in both orders: the rules and the constants have other numbers, and
the same letters are returned. -/
theorem generate_perm_letters :
    let list : Rule := ⟨"list", .zeroOrMore (.rule "letter")⟩
    let letter : Rule := ⟨"letter", .action (.labeled "x" .any) "x"⟩
    let H : Host Unit := fun _ _ args h => (.ok (args.headD .null), h)
    ∃ p p', (Grammar.mk [list, letter]).generate true = .ok p ∧
      (Grammar.mk [letter, list]).generate true = .ok p' ∧ p ≠ p' ∧
      [list, letter].Perm [letter, list] ∧ ([list, letter].map (·.name)).Nodup ∧
      (Machine.mk p H {} 3).parse "list" "ab" = (Machine.mk p' H {} 3).parse "list" "ab" ∧
      ∃ t, (Machine.mk p H {} 3).parse "list" "ab" (.start ()) =
        .ok (.array [.string "a", .string "b"]) t := by
  intro list letter H
  let p : Program := ⟨[⟨"list", [0, 0, 25, 1, 14, 3, 6, 25, 1, 2]⟩,
    ⟨"letter", [1, 15, 2, 2, 19, 1, 21, 1, 11, 7, 0, 22, 1, 24, 2, 1, 1, 0, 5]⟩],
    [.emptyArray, .expectation .anyChar, .function ⟨["x"], "x"⟩]⟩
  let p' : Program := ⟨[⟨"letter", [1, 15, 2, 2, 19, 1, 21, 0, 11, 7, 0, 22, 1, 24, 1, 1, 1, 0, 5]⟩,
    ⟨"list", [0, 2, 25, 0, 14, 3, 6, 25, 0, 2]⟩],
    [.expectation .anyChar, .function ⟨["x"], "x"⟩, .emptyArray]⟩
  have hg : (Grammar.mk [list, letter]).generate true = .ok p := by decide +kernel
  have hg' : (Grammar.mk [letter, list]).generate true = .ok p' := by decide +kernel
  have hp : [list, letter].Perm [letter, list] := .swap _ _ _
  have hn : ([list, letter].map (·.name)).Nodup := by decide
  have hl : p.load = [⟨"list", .instr 0 (.push 0) (.instr 2 (.rule 1) (.loop 4 3
      (.instr 6 .append (.instr 7 (.rule 1) .done)) (.instr 9 .pop .done)))⟩,
    ⟨"letter", .instr 0 .pushPos (.branch 1 .any 2 2 (.instr 4 (.acceptN 1) .done)
      (.instr 6 (.fail 1) .done) (.branch 8 .isMatched 7 0 (.instr 11 (.reportSaved 1)
        (.call 13 2 1 [0] .done)) .done (.instr 18 .nip .done)))⟩] := by
    decide +kernel
  have hparse := (generate_perm hg hg' hp hn H {} 3 "list" "ab").1
  refine ⟨p, p', hg, hg', by decide, hp, hn, hparse, ?_⟩
  have hi : p.ruleIndex? "list" = some 0 := by decide
  have hr : ∃ t, (Machine.mk p H {} 3).run 0 "ab" (.start ()) =
      .ok ⟨.array [.string "a", .string "b"], 2, ⟨2, [.anyChar]⟩⟩ t := by
    unfold Machine.run
    dsimp only
    rw [hl]
    exact ⟨_, rfl⟩
  obtain ⟨t, hr⟩ := hr
  refine ⟨t, ?_⟩
  unfold Machine.parse
  dsimp only
  rw [hi]
  exact Run.bind_eq_ok.mpr ⟨_, _, hr, rfl⟩

end Grammar
end PegMachine
