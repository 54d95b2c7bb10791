import PegMachine.Proofs.Semantics.Greedy

/-! How many matches there are in the array of a repetition. The first attempt is made before any bound
is looked at, so that there may be one match where there should be none. -/
namespace PegMachine

variable {σ : Type}

open Walk

section

variable {env : Walk.Env σ} {fuel : ℕ} {wrule : String → Walk σ Value} {e : Expr} {r : Repetition}
  {ls : Labels Value} {v : Value} {s t : Progress σ}

/-- A repetition that has a bound stops when it is reached, or with its first match. -/
theorem Repetition.length_le {later : Walk σ Value} {ws : List Value} {n : UInt32}
    (hn : r.most = some n)
    (h : gather (fun ws => if r.isFull ws then pure .failed else later) fuel [] v s = .ok ws t) :
    ws.length ≤ max n.toNat 1 := by
  -- counted with the match that is about to be gathered
  let count : List Value → Value → ℕ := fun vs v => if v.isFailed then vs.length else vs.length + 1
  have hlast : count ws .failed ≤ max n.toNat 1 := by
    refine gather_ok (I := fun vs v _ => count vs v ≤ max n.toNat 1) h ?_ ?_
    · have hone : count [] v ≤ 1 := by
        unfold count
        split <;> simp
      omega
    · intro vs v s w t hv hle hagain
      have hcount : count vs v = (vs ++ [v]).length := by simp [count, hv]
      by_cases hfull : n.toNat ≤ (vs ++ [v]).length
      · have hf : r.isFull (vs ++ [v]) = true := by
          rw [Repetition.isFull, hn]
          simpa using hfull
        rw [if_pos hf] at hagain
        obtain ⟨rfl, -⟩ := estate_pure_eq_ok.mp hagain
        rw [hcount] at hle
        exact hle
      · have hnext : count (vs ++ [v]) w ≤ (vs ++ [v]).length + 1 := by
          unfold count
          split <;> omega
        omega
  exact hlast

/-- What a repetition returns has been gathered, and there is not too much of it. -/
theorem Expr.walk_bounded (hr : e.repetition? = some r)
    (h : e.walk env fuel wrule ls s = .ok v t) :
    ∃ vs, v = r.result vs ∧ ∀ n ∈ r.most, vs.length ≤ max n.toNat 1 := by
  rw [Expr.walk_repetition hr] at h
  obtain ⟨x, u, -, h⟩ := estate_bind_eq_ok.mp h
  obtain ⟨vs, u', hvs, h⟩ := estate_bind_eq_ok.mp h
  obtain ⟨rfl, rfl⟩ := estate_pure_eq_ok.mp h
  exact ⟨vs, rfl, fun n hn => Repetition.length_le hn hvs⟩

end

namespace Grammar

variable {g : Grammar} {m : Machine σ} {verify : Bool} {e : Expr} {min max : Option UInt32}
  {d : Option Expr} {ctx : Context} {s : Scope} {c : Code} {S S' : Stack} {t u : State σ} {ip : ℕ}

/-- A bounded repetition that succeeds has matched at least and at most as often as it is asked to, or
once where it is asked not to match at all. It never succeeds where it is asked for more matches than
it may have, but for that one. -/
theorem generate_bounds (hg : g.generate verify = .ok m.program)
    (hc : (Expr.bounded e min max d).HasCode m.program.consts g.ruleIndex? ctx s c) (input : String)
    (depth : ℕ) (name : String)
    (hx : (m.activation input depth name).exec ip c S t = .ok S' u) :
    (S' = .failed :: S ∨ ∃ vs, S' = .array vs :: S ∧ (∀ n ∈ min, n.toNat ≤ vs.length) ∧
      ∀ n ∈ max, vs.length ≤ n.toNat ∨ n = 0 ∧ vs.length = 1) ∧
    ∀ a ∈ min, ∀ b ∈ max, b < a → ¬(a = 1 ∧ b = 0) → S' = .failed :: S := by
  have hsound := (generate_makes hg).expr_sound input depth name
  let r : Repetition := ⟨e, min.elim 0 UInt32.toNat, max, d⟩
  have hr : (Expr.bounded e min max d).repetition? = some r := rfl
  obtain ⟨hshape, -⟩ := hc.shape.repetition hr
  obtain ⟨v, rfl, hwalk⟩ := (hsound _ _ [] c S [] rfl hshape .nil).exists_walk_eq hx
  obtain ⟨vs, rfl, hmost⟩ := Expr.walk_bounded hr hwalk
  have hmax : ∀ n ∈ max, vs.length ≤ n.toNat ∨ n = 0 ∧ vs.length = 1 := by
    intro n hn
    have hle := hmost n hn
    by_cases hz : n = 0
    · subst hz
      by_cases hone : vs.length = 1
      · exact .inr ⟨rfl, hone⟩
      · left
        have hzero : (0 : UInt32).toNat = 0 := rfl
        omega
    · have hpos : n.toNat ≠ 0 := fun h => hz (UInt32.toNat_inj.mp h)
      omega
  by_cases hl : vs.length < r.least
  · have hfailed : r.result vs = .failed := if_pos hl
    rw [hfailed]
    exact ⟨.inl rfl, fun _ _ _ _ _ _ => rfl⟩
  · have harray : r.result vs = .array vs := if_neg hl
    have hmin : ∀ n ∈ min, n.toNat ≤ vs.length := by
      rintro n rfl
      exact not_lt.mp hl
    refine ⟨.inr ⟨vs, by rw [harray], hmin, hmax⟩, fun a ha b hb hlt hone => ?_⟩
    -- matches enough are too many
    have hle := hmin a ha
    have hlt : b.toNat < a.toNat := UInt32.lt_iff_toNat_lt.mp hlt
    rcases hmax b hb with hle' | ⟨rfl, hlen⟩
    · omega
    · refine absurd ⟨UInt32.toNat_inj.mp ?_, rfl⟩ hone
      change a.toNat = 1
      omega

/-- One letter or more, as far as there may be more, in a program whose constants are an empty array,
the mark of failure, what is expected of a letter, and the bounds. -/
def letters : Code := [0, 0, 15, 2, 2, 19, 1, 21, 2, 14, 15, 6, 0, 4, 13, 2, 7, 0, 1, 15, 2, 2, 19, 1,
  21, 2, 2, 0, 3, 12, 3, 0, 2, 0, 1]

theorem read_letters : Block.read 0 letters = .instr 0 (.push 0) (.branch 2 .any 2 2
    (.instr 5 (.acceptN 1) .done) (.instr 7 (.fail 2) .done) (.loop 9 15
      (.instr 11 .append (.instr 12 (.push 4) (.branch 14 .isFull 2 7 (.instr 17 (.push 1) .done)
        (.branch 19 .any 2 2 (.instr 22 (.acceptN 1) .done) (.instr 24 (.fail 2) .done) .done) .done)))
      (.instr 26 .pop (.instr 27 (.push 3) (.branch 29 .isShort 3 0
        (.instr 32 .pop (.instr 33 (.push 1) .done)) .done .done))))) := by
  decide +kernel

/-- Of three letters two are taken. -/
theorem generate_bounds_letters :
    let e : Expr := .bounded .any (some 1) (some 2) none
    let g : Grammar := ⟨[⟨"letters", e⟩]⟩
    ∃ (m : Machine Unit) (u : State Unit) (vs : List Value), g.generate true = .ok m.program ∧
      e.HasCode m.program.consts g.ruleIndex? .rule [] letters ∧
      (m.activation "aaa" 0 "letters").exec 0 letters [] (.start ()) = .ok [.array vs] u ∧
      vs = [.string "a", .string "a"] ∧ 1 ≤ vs.length ∧ vs.length ≤ 2 := by
  intro e g
  let consts : List Constant := [.emptyArray, .failed, .expectation .anyChar, .bound (some 1),
    .bound (some 2)]
  let m : Machine Unit := ⟨⟨[⟨"letters", letters⟩], consts⟩, fun _ _ _ h => (.ok .null, h), {}, 2⟩
  have hg : g.generate true = .ok m.program := by decide +kernel
  have hc : e.HasCode consts g.ruleIndex? .rule [] letters := ⟨{}, ⟨consts⟩, rfl, List.prefix_rfl⟩
  have hx : ∃ u, (m.activation "aaa" 0 "letters").exec 0 letters [] (.start ()) =
      .ok [.array [.string "a", .string "a"]] u := by
    rw [Activation.exec, read_letters]
    exact ⟨_, rfl⟩
  obtain ⟨u, hx⟩ := hx
  rcases (generate_bounds hg hc "aaa" 0 "letters" hx).1 with hend | ⟨vs, hend, hmin, hmax⟩
  · cases hend
  · obtain rfl := Value.array.inj (List.cons.inj hend).1
    refine ⟨m, u, _, hg, hc, hx, rfl, hmin 1 rfl, ?_⟩
    rcases hmax 2 rfl with hle | ⟨h, -⟩
    · exact hle
    · cases h

/-- Where a letter is asked for and none may be had, there is one. -/
theorem not_bounded_letter :
    let e : Expr := .bounded .any (some 1) (some 0) none
    let g : Grammar := ⟨[⟨"letters", e⟩]⟩
    ∃ (m : Machine Unit) (u : State Unit), g.generate true = .ok m.program ∧
      e.HasCode m.program.consts g.ruleIndex? .rule [] letters ∧
      (m.activation "a" 0 "letters").exec 0 letters [] (.start ()) =
        .ok [.array [.string "a"]] u := by
  intro e g
  let consts : List Constant := [.emptyArray, .failed, .expectation .anyChar, .bound (some 1),
    .bound (some 0)]
  let m : Machine Unit := ⟨⟨[⟨"letters", letters⟩], consts⟩, fun _ _ _ h => (.ok .null, h), {}, 1⟩
  have hg : g.generate true = .ok m.program := by decide +kernel
  have hc : e.HasCode consts g.ruleIndex? .rule [] letters := ⟨{}, ⟨consts⟩, rfl, List.prefix_rfl⟩
  have hx : ∃ u, (m.activation "a" 0 "letters").exec 0 letters [] (.start ()) =
      .ok [.array [.string "a"]] u := by
    rw [Activation.exec, read_letters]
    exact ⟨_, rfl⟩
  obtain ⟨u, hx⟩ := hx
  exact ⟨m, u, hg, hc, hx⟩

end Grammar
end PegMachine
