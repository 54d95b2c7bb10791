import PegMachine.Proofs.Compile.Appending
import PegMachine.Proofs.Grammar.ClassText
import PegMachine.Proofs.Semantics.Literal

/-! What a class records when it fails. Its expectation is its text, from which the class can be read
back, so each class of a program has an expectation of its own among the constants. -/
namespace PegMachine

variable {σ : Type}

open Run

/-- The code `c` fails by the instruction that names constant `i`, and this constant, the expectation
`x`, is all that it records then. -/
structure Machine.FailsBy (m : Machine σ) (c : Code) (i : UInt32) (x : Expectation) : Prop where
  operand : ∃ test yes : Code, Code.branch test yes (Code.seq [.fail i]) = .ok c
  constant : m.program.expectation i = .ok x
  records : ∀ input depth name ip S t S' u,
    (m.activation input depth name).exec ip c S t = .ok (.failed :: S') u →
      S' = S ∧ u.toProgress = t.toProgress.fail x

section

variable {A : Activation σ} {c : Code} {S S' : Stack} {s u : State σ} {k : CharClass} {text : String}
  {rules : String → Option ℕ} {ctx : Context} {sc : Scope}

/-- The code of a class: a test, and the number of the expectation if it does not hold. -/
theorem Expr.HasCode.charClass {K : List Constant}
    (hc : (Expr.charClass k text).HasCode K rules ctx sc c) : ∃ members i : UInt32,
      Numbers K members (.charClass { k with ignoreCase := k.ignoreCase && !k.parts.isEmpty }) ∧
      Numbers K i (.expectation (.ofClass text)) ∧
      Code.branch (Test.words (.charClass members)) (Code.seq [.acceptN 1]) (Code.seq [.fail i]) =
        .ok c := by
  cases hc.shape with
  | charClass hm hx hc => exact ⟨_, _, hm, hx, hc⟩

/-- A test that does not match leaves the mark of failure, and what it has recorded. -/
theorem Activation.exec_charClass {members i : UInt32} {x : Expectation}
    (hm : A.env.program.charClass members = .ok k) (hx : A.env.program.expectation i = .ok x)
    (hb : Code.branch (Test.words (.charClass members)) (Code.seq [.acceptN 1])
      (Code.seq [.fail i]) = .ok c) {ip : ℕ} (hr : A.exec ip c S s = .ok (.failed :: S') u) :
    S' = S ∧ u.toProgress = s.toProgress.fail x := by
  have htest : Test.holds A.env s.pos (.charClass members) S =
      .ok (A.env.input[s.pos]?.any k.accepts, S) := by
    rw [Test.holds, hm]
    rfl
  rw [A.exec_either hb htest ip, tick_bind_eq_ok, tick_bind_eq_ok] at hr
  obtain ⟨-, -, -, -, hr⟩ := hr
  split at hr
  · simp only [Instr.run, bind_eq_ok, pure_eq_ok] at hr
    obtain ⟨_, _, _, _, _, _, h, _⟩ := hr
    cases (List.cons.inj h).1
  · rw [Instr.run, hx] at hr
    obtain ⟨h, rfl⟩ := EStateM.Result.ok.inj hr
    exact ⟨(List.cons.inj h).2.symm, rfl⟩

end

namespace Grammar

variable {g : Grammar} {m : Machine σ} {verify : Bool} {k : CharClass} {ctx : Context} {s : Scope}
  {c : Code}

theorem exists_failsBy (hg : g.generate verify = .ok m.program)
    (hc : (Expr.ofClass k).HasCode m.program.consts g.ruleIndex? ctx s c) :
    ∃ i, m.FailsBy c i (.ofClass k.render) := by
  obtain ⟨members, i, hm, hx, hb⟩ := hc.charClass
  have hconsts := (generate_makes hg).consts
  have hclass : m.program.charClass members =
      .ok { k with ignoreCase := k.ignoreCase && !k.parts.isEmpty } := by
    rw [Program.charClass, Program.constant?, hm hconsts]
  have hexpectation : m.program.expectation i = .ok (.ofClass k.render) := by
    rw [Program.expectation, Program.constant?, hx hconsts]
  exact ⟨i, ⟨_, _, hb⟩, hexpectation, fun input depth name ip S t S' u hr =>
    Activation.exec_charClass (A := m.activation input depth name) hclass hexpectation hb hr⟩

end Grammar

/-- The constant that is found under a number is kept once. -/
theorem Program.expectation_inj {p : Program} {i j : UInt32} {x : Expectation} (h : p.consts.Nodup)
    (hi : p.expectation i = .ok x) (hj : p.expectation j = .ok x) : i = j := by
  have hconst : ∀ k, p.expectation k = .ok x → p.consts[k.toNat]? = some (.expectation x) := by
    intro k hk
    unfold Program.expectation at hk
    split at hk
    · next hc => rwa [← Except.ok.inj hk]
    · cases hk
  have hci := hconst i hi
  obtain ⟨hlt, -⟩ := List.getElem?_eq_some_iff.mp hci
  exact UInt32.toNat_inj.mp ((List.getElem?_inj hlt h).mp (hci.trans (hconst j hj).symm))

/-- Two classes are written alike just where they are the same, and so the expectations that they record
where they fail are one constant of a program just where they are. -/
theorem Grammar.generate_tells_classes (k k' : CharClass) :
    (k.render = k'.render ↔ k = k') ∧
      ∀ {σ : Type} {g : Grammar} {m : Machine σ} {verify : Bool} {ctx ctx' : Context} {s s' : Scope}
        {c c' : Code}, g.generate verify = .ok m.program →
        (Expr.ofClass k).HasCode m.program.consts g.ruleIndex? ctx s c →
        (Expr.ofClass k').HasCode m.program.consts g.ruleIndex? ctx' s' c' →
        ∃ i i', m.FailsBy c i (.ofClass k.render) ∧ m.FailsBy c' i' (.ofClass k'.render) ∧
          (i = i' ↔ k = k') := by
  refine ⟨CharClass.render_injective.eq_iff, ?_⟩
  intro σ g m verify ctx ctx' s s' c c' hg hc hc'
  obtain ⟨i, hi⟩ := exists_failsBy hg hc
  obtain ⟨i', hi'⟩ := exists_failsBy hg hc'
  refine ⟨i, i', hi, hi', ?_⟩
  constructor
  · rintro rfl
    have hsame := Except.ok.inj (hi.constant.symm.trans hi'.constant)
    exact CharClass.render_injective (Expectation.charClass.inj hsame).1
  · rintro rfl
    exact Program.expectation_inj (nodup_consts hg) hi.constant hi'.constant

/-- A range and its two ends, of which one has a meaning of its own between brackets. -/
theorem Grammar.generate_tells_classes_range :
    let k : CharClass := ⟨[.range '\n' ']'], false, true⟩
    let k' : CharClass := ⟨[.char '\n', .char '-', .char ']'], false, true⟩
    let g : Grammar := ⟨[⟨"class", .choice [.ofClass k, .ofClass k']⟩]⟩
    let c : Code := [18, 0, 2, 2, 19, 1, 21, 1]
    let c' : Code := [18, 2, 2, 2, 19, 1, 21, 3]
    ∃ m : Machine Unit, g.generate true = .ok m.program ∧
      (Expr.ofClass k).HasCode m.program.consts g.ruleIndex? (Context.rule.push 0) [] c ∧
      (Expr.ofClass k').HasCode m.program.consts g.ruleIndex? (Context.rule.push 0) [] c' ∧
      ∃ i i', m.FailsBy c i (.ofClass "[\\n-\\]]i") ∧ m.FailsBy c' i' (.ofClass "[\\n\\-\\]]i") ∧
        i ≠ i' := by
  intro k k' g c c'
  let K : List Constant := [.charClass k, .expectation (.ofClass k.render), .charClass k',
    .expectation (.ofClass k'.render)]
  let m : Machine Unit := ⟨⟨[⟨"class", c ++ 10 :: 9 :: 0 :: 2 :: c'⟩], K⟩, .none, {}, 0⟩
  have hg : g.generate true = .ok m.program := by decide +kernel
  have hc : (Expr.ofClass k).HasCode m.program.consts g.ruleIndex? (Context.rule.push 0) [] c :=
    ⟨{}, ⟨K.take 2⟩, rfl, List.take_prefix _ _⟩
  have hc' : (Expr.ofClass k').HasCode m.program.consts g.ruleIndex? (Context.rule.push 0) [] c' :=
    ⟨⟨K.take 2⟩, ⟨K⟩, by decide +kernel, List.prefix_rfl⟩
  obtain ⟨i, i', hi, hi', hdiffer⟩ := (Grammar.generate_tells_classes k k').2 hg hc hc'
  have hk : k ≠ k' := by decide
  have hrender : k.render = "[\\n-\\]]i" := by decide +kernel
  have hrender' : k'.render = "[\\n\\-\\]]i" := by decide +kernel
  rw [hrender] at hi
  rw [hrender'] at hi'
  exact ⟨m, hg, hc, hc', i, i', hi, hi', fun h => hk (hdiffer.mp h)⟩

end PegMachine
