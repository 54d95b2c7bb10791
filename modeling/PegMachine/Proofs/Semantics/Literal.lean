import PegMachine.Proofs.Semantics.Program
import PegMachine.Proofs.Text.Fold

/-! Literals without regard to case. The constant that a literal is compared with is its text in lower
case; the input is lowered character by character, and a literal that matches takes as many characters
of it as it has itself. The two agree but for final sigmas, where a literal does not match what it
spells, and for dotted capital I, which is longer in lower case, where it may take more or less of the
input than it has matched. -/
namespace PegMachine

variable {σ : Type}

open Run

section

variable {A : Activation σ} {S S' : Stack} {s u : State σ} {c : Code} {v : String}

/-- A test between two instructions. -/
theorem Activation.exec_either {t : Test} {yes no : Instr} {answer : Bool}
    (hb : Code.branch t.words (Code.seq [yes]) (Code.seq [no]) = .ok c)
    (ht : t.holds A.env s.pos S = .ok (answer, S)) (ip : ℕ) :
    A.exec ip c S s = (tick A.env.limits S >>= fun _ => tick A.env.limits S >>= fun _ =>
      (if answer then yes else no).run A.env A.rule S) s := by
  have hone : ∀ i : Instr, Code.seq [i] = i.words := fun i => List.append_nil _
  obtain ⟨j, k, hx⟩ := A.exec_branch hb ip S
  rw [hx]
  change EStateM.bind _ _ s = EStateM.bind _ _ s
  rcases tick_cases A.env.limits S s with htick | ⟨x, -, htick⟩
  · rw [EStateM.bind, EStateM.bind, htick]
    change (Run.ofExcept (t.holds A.env s.pos S) >>= fun x => _) _ = _
    rw [ht]
    cases answer <;> simp only [hone, exec_instr] <;> rfl
  · rw [EStateM.bind, EStateM.bind, htick]

/-- What a literal leaves that is compared without regard to case, after its two steps. -/
def State.afterFolded (s : State σ) (input : Input) (v : String) (S : Stack) : Stack × State σ :=
  let t := { s with steps := s.steps + 2 }
  if input.hasFoldedAt s.pos (Text.lower v) then
    let q := min (s.pos + v.length) input.size
    (.string (input.slice s.pos q) :: S, { t with pos := q })
  else (.failed :: S, { t with toProgress := s.toProgress.fail (.ofLiteral v) })

theorem Expr.HasCode.literal {K : List Constant} {rules : String → Option ℕ} {ctx : Context}
    {sc : Scope} {ignoreCase : Bool} (hc : (Expr.literal v ignoreCase).HasCode K rules ctx sc c) :
    LiteralCode K v ignoreCase c := by
  cases hc.shape with
  | literal hl => exact hl

/-- The constant that the input is compared with. -/
theorem LiteralCode.constant {K : List Constant} {code : Code} (hc : LiteralCode K v true code)
    (hv : v ≠ "") : ∃ k, code[1]? = some k ∧ Numbers K k (.string (Text.lower v)) := by
  cases hc with
  | empty h => exact absurd (String.isEmpty_iff.mp h) hv
  | @folded text _ _ _ _ ht _ _ hb =>
    obtain ⟨_, _, -, -, rfl⟩ := Code.branch_words hb
    exact ⟨text, rfl, ht⟩

theorem LiteralCode.exec_eq_ok (hK : A.env.program.consts.length ≤ UInt32.size)
    (hc : LiteralCode A.env.program.consts v true c) (hv : v ≠ "") (ip : ℕ) :
    A.exec ip c S s = .ok S' u ↔
      (∀ n ∈ A.env.limits.steps, s.steps + 2 ≤ n) ∧ S.length ≤ A.env.limits.stack ∧
        s.afterFolded A.env.input v S = (S', u) := by
  cases hc with
  | empty h => exact absurd (String.isEmpty_iff.mp h) hv
  | @folded text expected n _ _ ht hx hn hb =>
    have htest : Test.holds A.env s.pos (.folded text) S =
        .ok (A.env.input.hasFoldedAt s.pos (Text.lower v), S) := by
      rw [Test.holds, (ht.has hK).string]
      rfl
    have hrun : (if A.env.input.hasFoldedAt s.pos (Text.lower v) then Instr.acceptN n
        else .fail expected).run A.env A.rule S { s with steps := s.steps + 2 } =
          .ok (s.afterFolded A.env.input v S).1 (s.afterFolded A.env.input v S).2 := by
      unfold State.afterFolded
      split
      · rw [Instr.run, hn]
        rfl
      · rw [Instr.run, (hx.has hK).expectation]
        rfl
    rw [A.exec_either hb htest ip, tick_bind_eq_ok, tick_bind_eq_ok]
    dsimp only
    rw [hrun, EStateM.Result.ok.injEq, Prod.ext_iff]
    constructor
    · rintro ⟨-, hstack, hsteps, -, hend⟩
      exact ⟨hsteps, hstack, hend⟩
    · rintro ⟨hsteps, hstack, hend⟩
      refine ⟨fun n hn => ?_, hstack, hsteps, hstack, hend⟩
      have := hsteps n hn
      omega

/-- A literal that matches takes what stands in the input. -/
theorem LiteralCode.exec_match (hK : A.env.program.consts.length ≤ UInt32.size)
    (hc : LiteralCode A.env.program.consts v true c) (hv : v ≠ "")
    (hn : ∀ n ∈ A.env.limits.steps, s.steps + 2 ≤ n) (hS : S.length ≤ A.env.limits.stack)
    (hat : A.env.input.hasFoldedAt s.pos (Text.lower v)) {q : ℕ} {w : String}
    (hq : min (s.pos + v.length) A.env.input.size = q) (hw : A.env.input.slice s.pos q = w)
    (ip : ℕ) : ∃ u, A.exec ip c S s = .ok (.string w :: S) u ∧ u.pos = q := by
  subst hq hw
  exact ⟨_, (exec_eq_ok hK hc hv ip).mpr ⟨hn, hS, if_pos hat⟩, rfl⟩

end

/-- A run of a rule, from the run of its code. -/
theorem Machine.run_of_exec {m : Machine σ} {input : String} {i d : ℕ} {r : RuleCode} {v : Value}
    {S : Stack} {s u : State σ} (hi : m.program.rules[i]? = some r) (hd : m.limits.callDepth = d + 1)
    (hx : (m.activation input d r.name).exec 0 r.code [] (.start s.host) = .ok (v :: S) u) :
    m.run i input s = .ok ⟨v, u.pos, u.report⟩ u := by
  rw [Machine.run, hd, m.rule_eq input d hi]
  refine bind_eq_ok.mpr ⟨(), .start s.host, rfl, ?_⟩
  exact bind_eq_ok.mpr ⟨v, u, bind_eq_ok.mpr ⟨_, _, hx, rfl⟩, rfl⟩

namespace Grammar

variable {g : Grammar} {m : Machine σ} {verify : Bool} {i : ℕ} {name v : String}
  {ctx : Context} {s : Scope} {code : Code}

/-- A run of a rule that is a literal without regard to case. -/
theorem run_literal (hg : g.generate verify = .ok m.program)
    (hi : g.rules[i]? = some ⟨name, .literal v true⟩) (hv : v ≠ "") (hd : 0 < m.limits.callDepth)
    (hn : ∀ n ∈ m.limits.steps, 2 ≤ n) (input : String) (s : State σ) :
    let q := min (0 + v.length) (Input.ofString input).size
    ((Input.ofString input).hasFoldedAt 0 (Text.lower v) →
      ∃ t, m.run i input s = .ok ⟨.string ((Input.ofString input).slice 0 q), q, {}⟩ t) ∧
    (¬(Input.ofString input).hasFoldedAt 0 (Text.lower v) →
      ∃ t, m.run i input s = .ok ⟨.failed, 0, ⟨0, [.ofLiteral v]⟩⟩ t) := by
  have hmakes := generate_makes hg
  obtain ⟨hlt, hrule⟩ := List.getElem?_eq_some_iff.mp hi
  have hlt' : i < m.program.rules.length := by
    rw [hmakes.length_eq]
    exact hlt
  have hshape := (hmakes.shapes.get hlt hlt').2
  rw [List.get_eq_getElem, hrule] at hshape
  obtain ⟨d, hdepth⟩ : ∃ d, m.limits.callDepth = d + 1 := ⟨m.limits.callDepth - 1, by omega⟩
  cases hshape with
  | literal hc =>
    let A := m.activation input d m.program.rules[i].name
    have hx : ∀ S' u, (State.start s.host).afterFolded (.ofString input) v [] = (S', u) →
        A.exec 0 m.program.rules[i].code [] (.start s.host) = .ok S' u :=
      fun S' u h => (LiteralCode.exec_eq_ok hmakes.consts hc hv 0).mpr ⟨hn, Nat.zero_le _, h⟩
    have hcode := List.getElem?_eq_getElem hlt'
    constructor
    · intro hat
      exact ⟨_, Machine.run_of_exec hcode hdepth (hx _ _ (if_pos hat))⟩
    · intro hat
      exact ⟨_, Machine.run_of_exec hcode hdepth (hx _ _ (if_neg hat))⟩

/-- Run on an input that begins with what it spells, a literal without regard to case matches that,
just where none of its sigmas is final. A final one has a form of its own in the text as a whole, which
the characters of the input, taken one by one, do not have. -/
theorem generate_matches_spelling (hg : g.generate verify = .ok m.program)
    (hi : g.rules[i]? = some ⟨name, .literal v true⟩) (hv : v ≠ "") (hd : 0 < m.limits.callDepth)
    (hn : ∀ n ∈ m.limits.steps, 2 ≤ n) (rest : String) (s : State σ) :
    (¬Text.FinalSigma [] v.toList →
      ∃ t, m.run i (v ++ rest) s = .ok ⟨.string v, v.length, {}⟩ t) ∧
    (Text.FinalSigma [] v.toList →
      ∃ t, m.run i (v ++ rest) s = .ok ⟨.failed, 0, ⟨0, [.ofLiteral v]⟩⟩ t) := by
  have hspelled : (Input.ofString (v ++ rest)).hasFoldedAt 0 (Text.lower v) = true ↔
      ¬Text.FinalSigma [] v.toList := by
    rw [Input.hasFoldedAt_iff, ← Text.lower_prefix_fold_iff v rest.toList]
    simp [Input.ofString]
  obtain ⟨hmatch, hfail⟩ := run_literal hg hi hv hd hn (v ++ rest) s
  have hmin : min (0 + v.length) (Input.ofString (v ++ rest)).size = v.length := by
    simp [Input.ofString, ← String.length_toList]
  have htext : (Input.ofString (v ++ rest)).slice 0 v.length = v := by
    have hslice := Input.toList_slice_min (.ofString (v ++ rest)) v.length (Nat.zero_le _)
    rw [hmin] at hslice
    rw [← String.toList_inj, hslice]
    simp [Input.ofString, ← String.length_toList]
  rw [hmin, htext] at hmatch
  exact ⟨fun h => hmatch (hspelled.mpr h), fun h => hfail fun hat => hspelled.mp hat h⟩

/-- The code of a literal of two characters. -/
def twoCode : Code := [17, 0, 2, 2, 19, 2, 21, 1]

/-- A machine for such a literal. -/
def twoMachine (v : String) : Machine Unit where
  program := ⟨[⟨"two", twoCode⟩], [.string (Text.lower v), .expectation (.ofLiteral v)]⟩
  host _ _ _ h := (.ok .null, h)
  fuel := 0

/-- A dotted capital I does not stand in the way. -/
theorem generate_matches_spelling_dotted :
    let g : Grammar := ⟨[⟨"two", .literal "İx" true⟩]⟩
    let m := twoMachine "İx"
    g.generate true = .ok m.program ∧ 0 < m.limits.callDepth ∧ (∀ n ∈ m.limits.steps, 2 ≤ n) ∧
      ¬Text.FinalSigma [] "İx".toList ∧
      ∃ t, m.run 0 ("İx" ++ "y") (.start ()) = .ok ⟨.string "İx", 2, {}⟩ t := by
  intro g m
  have hg : g.generate true = .ok m.program := by decide +kernel
  have hn : ∀ n ∈ m.limits.steps, 2 ≤ n := by
    rintro n ⟨⟩
  have hsigma : ¬Text.FinalSigma [] "İx".toList := by
    rintro ⟨a, b, h, -⟩
    have hmem : 'Σ' ∈ "İx".toList := by
      rw [h]
      exact List.mem_append_right a List.mem_cons_self
    revert hmem
    decide
  have hrun := generate_matches_spelling (i := 0) hg rfl (by decide) (by decide) hn "y" (.start ())
  exact ⟨hg, by decide, hn, hsigma, hrun.1 hsigma⟩

/-- A literal that ends with a capital sigma does not match what it spells. -/
theorem not_matches_spelling_sigma :
    let g : Grammar := ⟨[⟨"two", .literal "ΑΣ" true⟩]⟩
    let m := twoMachine "ΑΣ"
    g.generate true = .ok m.program ∧ 0 < m.limits.callDepth ∧ (∀ n ∈ m.limits.steps, 2 ≤ n) ∧
      ∃ t, m.run 0 ("ΑΣ" ++ "") (.start ()) = .ok ⟨.failed, 0, ⟨0, [.ofLiteral "ΑΣ"]⟩⟩ t := by
  intro g m
  have hg : g.generate true = .ok m.program := by decide +kernel
  have hn : ∀ n ∈ m.limits.steps, 2 ≤ n := by
    rintro n ⟨⟩
  have hnot : ¬(Input.ofString ("ΑΣ" ++ "")).hasFoldedAt 0 (Text.lower "ΑΣ") = true := by
    decide +kernel
  have hrun := run_literal (i := 0) hg rfl (by decide) (by decide) hn ("ΑΣ" ++ "") (.start ())
  exact ⟨hg, by decide, hn, hrun.2 hnot⟩

/-- A literal that succeeds has found its constant at the start of the lowered input. It takes as many
characters as it has itself, or all that are left. In lower case these are the constant just where they
are as many: one for each character and one more for each dotted capital I. So they are where there is
no such letter in either. -/
theorem generate_accepts (hg : g.generate verify = .ok m.program)
    (hc : (Expr.literal v true).HasCode m.program.consts g.ruleIndex? ctx s code) (hv : v ≠ "")
    (input : String) (depth : ℕ) (name : String) :
    ∃ k, code[1]? = some k ∧ m.program.string k = .ok (Text.lower v) ∧ ∀ ip S S' t u,
      (m.activation input depth name).exec ip code S t = .ok S' u →
      S' = .failed :: S ∧ u.pos = t.pos ∨
      ∃ w : String, S' = .string w :: S ∧ u.pos = t.pos + w.length ∧
        w.toList = (input.toList.drop t.pos).take v.length ∧
        (Text.lower v).toList <+: Text.fold (input.toList.drop t.pos) ∧
        (Text.fold w.toList = (Text.lower v).toList ↔
          w.length + w.toList.count 'İ' = v.length + v.toList.count 'İ') ∧
        ('İ' ∉ v.toList → 'İ' ∉ w.toList → Text.fold w.toList = (Text.lower v).toList) := by
  have hmakes := generate_makes hg
  obtain ⟨k, hk, hnum⟩ := hc.literal.constant hv
  refine ⟨k, hk, (hnum.has (A := m.activation input depth name) hmakes.consts).string, ?_⟩
  intro ip S S' t u hx
  have hend := ((LiteralCode.exec_eq_ok hmakes.consts hc.literal hv ip).mp hx).2.2
  unfold State.afterFolded at hend
  split at hend
  · next hat =>
    obtain ⟨rfl, rfl⟩ := Prod.mk.inj hend
    have hempty : v.isEmpty = false := by simpa [String.isEmpty_iff] using hv
    have hlt := Input.lt_size_of_hasFoldedAt (Text.lower_ne_nil hempty) hat
    have htext := Input.toList_slice_min _ v.length hlt.le
    have hlength := congrArg List.length htext
    rw [String.length_toList] at hlength
    have hprefix := Input.hasFoldedAt_iff.mp hat
    refine .inr ⟨_, rfl, ?_, htext, hprefix, ?_, ?_⟩
    · rw [hlength, List.length_take, List.length_drop, Array.length_toList]
      dsimp only
      omega
    · rw [htext, hlength]
      exact Text.fold_eq_lower_iff (List.take_prefix _ _) hprefix
    · rw [htext]
      exact Text.fold_take_eq_lower hprefix
  · obtain ⟨rfl, rfl⟩ := Prod.mk.inj hend
    refine .inl ⟨rfl, ?_⟩
    dsimp only
    rw [Progress.fail]
    split <;> rfl

/-- Both have a dotted capital I. -/
theorem generate_accepts_dotted :
    let e : Expr := .literal "İx" true
    let g : Grammar := ⟨[⟨"two", e⟩]⟩
    let m := twoMachine "İx"
    g.generate true = .ok m.program ∧ e.HasCode m.program.consts g.ruleIndex? .rule [] twoCode ∧
      ∃ u, (m.activation "İXy" 0 "two").exec 0 twoCode [] (.start ()) = .ok [.string "İX"] u ∧
        u.pos = 2 ∧ Text.fold "İX".toList = (Text.lower "İx").toList := by
  intro e g m
  have hg : g.generate true = .ok m.program := by decide +kernel
  have hc : e.HasCode m.program.consts g.ruleIndex? .rule [] twoCode :=
    ⟨{}, ⟨m.program.consts⟩, rfl, List.prefix_rfl⟩
  obtain ⟨u, hx, hpos⟩ : ∃ u, (m.activation "İXy" 0 "two").exec 0 twoCode [] (.start ()) =
      .ok [.string "İX"] u ∧ u.pos = 2 :=
    hc.literal.exec_match (by decide) (by decide) (by rintro n ⟨⟩) (by decide) (by decide +kernel)
      (by decide) (by decide) 0
  obtain ⟨k, -, -, hlaw⟩ := generate_accepts hg hc (by decide) "İXy" 0 "two"
  rcases hlaw _ _ _ _ _ hx with ⟨h, -⟩ | ⟨w, hw, -, -, -, hsame, -⟩
  · cases h
  · obtain rfl := Value.string.inj (List.cons.inj hw).1
    exact ⟨hg, hc, u, hx, hpos, hsame.mpr (by decide)⟩

/-- A literal of a dotted i takes the character after a dotted capital I as well. -/
theorem accepts_more_than_matched :
    let e : Expr := .literal "i\u0307" true
    let g : Grammar := ⟨[⟨"two", e⟩]⟩
    let m := twoMachine "i\u0307"
    g.generate true = .ok m.program ∧ e.HasCode m.program.consts g.ruleIndex? .rule [] twoCode ∧
      (∃ u, (m.activation "İx" 0 "two").exec 0 twoCode [] (.start ()) = .ok [.string "İx"] u ∧
        u.pos = 2) ∧ Text.fold "İx".toList ≠ (Text.lower "i\u0307").toList := by
  intro e g m
  have hg : g.generate true = .ok m.program := by decide +kernel
  have hc : e.HasCode m.program.consts g.ruleIndex? .rule [] twoCode :=
    ⟨{}, ⟨m.program.consts⟩, rfl, List.prefix_rfl⟩
  have hdiffer : Text.fold "İx".toList ≠ (Text.lower "i\u0307").toList := by decide +kernel
  have hx : ∃ u, (m.activation "İx" 0 "two").exec 0 twoCode [] (.start ()) =
      .ok [.string "İx"] u ∧ u.pos = 2 :=
    hc.literal.exec_match (by decide) (by decide) (by rintro n ⟨⟩) (by decide) (by decide +kernel)
      (by decide) (by decide) 0
  exact ⟨hg, hc, hx, hdiffer⟩

end Grammar
end PegMachine
