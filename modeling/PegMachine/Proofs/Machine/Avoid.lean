import PegMachine.Proofs.Code.Balance

/-! Stops that balanced code cannot come to. If no single step comes to one of them, on a stack with the
values that the step takes, neither does the code. -/
namespace PegMachine

variable {σ α β : Type} {B : Stop → Prop} {ok : ℕ → ℕ → Prop} {h k M room : ℕ} {c : Code} {S : Stack}

open Run

namespace Run

/-- None of the stops of a run is one of `B`. -/
def Avoids (B : Stop → Prop) (f : Run σ α) : Prop := ∀ s x t, f s = .error x t → ¬B x

namespace Avoids

theorem pure (a : α) : Avoids (σ := σ) B (pure a) := by
  intro s x t ht
  cases ht

theorem get : Avoids (σ := σ) B get := by
  intro s x t ht
  cases ht

theorem stop {x : Stop} (hx : ¬B x) : Avoids (α := α) (σ := σ) B (throw x) := by
  intro s y t ht
  cases ht
  exact hx

theorem bind {f : Run σ α} {f' : α → Run σ β} (hf : Avoids B f)
    (hk : ∀ s a t, f s = .ok a t → Avoids B (f' a)) : Avoids B (f >>= f') := by
  intro s x t ht
  rcases bind_eq_error.mp ht with ht | ⟨a, u, hu, ht⟩
  · exact hf s x t ht
  · exact hk s a u hu u x t ht

/-- Each round starts on a stack of height `h` and keeps that height. -/
theorem whileMatched {body : Stack → Run σ Stack} (hfuel : ¬B .fuel) (hh : 0 < h)
    (hb : ∀ S, S.length = h → Avoids B (body S))
    (hl : ∀ S s S' s', S.length = h → body S s = .ok S' s' → S'.length = h) (fuel : ℕ)
    (hS : S.length = h) : Avoids B (whileMatched body fuel S) := by
  induction fuel generalizing S with
  | zero =>
    obtain ⟨v, T, rfl⟩ := List.exists_cons_of_length_pos (hS ▸ hh)
    rw [Run.whileMatched]
    apply (Avoids.pure v).bind
    intro _ _ _ _
    split
    · exact .pure _
    · exact .stop hfuel
  | succ fuel ih =>
    obtain ⟨v, T, rfl⟩ := List.exists_cons_of_length_pos (hS ▸ hh)
    rw [Run.whileMatched]
    apply (Avoids.pure v).bind
    intro _ _ _ _
    split
    · exact .pure _
    · apply (hb _ hS).bind
      intro s S' u hu
      exact ih (hl _ s S' u hS hu)

end Avoids
end Run

/-- None of the single steps comes to a stop in `B`: they start on stacks of at most `room` values,
which hold all that the step takes or reads. -/
structure Activation.StepsAvoid (A : Activation σ) (B : Stop → Prop) (ok : ℕ → ℕ → Prop)
    (room : ℕ) : Prop where
  fuel : ¬B .fuel
  tick {S : Stack} (hS : S.length ≤ room) : Avoids (σ := σ) B (tick A.env.limits S)
  instr {i : Instr} {S : Stack} (hS : i.takes ≤ S.length) : Avoids B (i.run A.env A.rule S)
  test {t : Test} {S : Stack} (hS : t.opcode.reads ≤ S.length) (p : ℕ) :
    Avoids (σ := σ) B (ofExcept (t.holds A.env p S))
  slots {slots : Code} {S : Stack} (hS : ∀ x ∈ slots, ok S.length x.toNat) :
    Avoids (σ := σ) B (ofExcept (S.peekAll slots))
  call (f : UInt32) (args : List Value) : Avoids B (callHost A.env f args)

/-- An instruction adds one value to the stack at most. -/
theorem Instr.gives_le (i : Instr) : i.gives ≤ i.takes + 1 := by
  cases i <;> simp

namespace Balanced

theorem length_eq {A : Activation σ} {ip : ℕ} {S' : Stack} {s s' : State σ}
    (hc : Balanced ok M c h k) (hS : S.length = h) (hr : A.exec ip c S s = .ok S' s') :
    S'.length = k := by
  rw [← S.append_nil] at hr
  obtain ⟨V, hV, rfl⟩ := hc.frame hS hr
  simpa using hV

/-- Code adds no more values to the stack than it has words. -/
theorem le (hc : Balanced ok M c h k) : k ≤ h + c.length := by
  induction hc with
  | nil h => exact Nat.le_add_right _ _
  | @instr i c h k hM ht hc ih =>
    have := i.gives_le
    rw [List.length_append, Instr.words, List.length_cons]
    omega
  | @branch t yes no br c h j k hb ht hy hn hc ihy ihn ih =>
    obtain ⟨m, l, -, -, rfl⟩ := Code.branch_words hb
    simp only [List.length_append, List.length_cons]
    omega
  | @loop body lp c h k hl ht hb hc ihb ih =>
    rw [List.length_append]
    omega
  | @call f pops n slots c h k hn hM ht hs hc ih =>
    simp only [List.length_append, List.length_cons]
    omega

/-- Balanced code avoids what its single steps avoid, if there is room for as many values more as the
code has words. -/
theorem avoids {A : Activation σ} {ip : ℕ} (hc : Balanced ok M c h k)
    (hA : A.StepsAvoid B ok room) (hroom : h + c.length ≤ room) (hS : S.length = h) :
    Avoids B (A.exec ip c S) := by
  induction hc generalizing ip S with
  | nil h =>
    rw [Activation.exec_nil]
    exact .pure S
  | @instr i c h k hM ht hc ih =>
    have := i.gives_le
    rw [List.length_append, Instr.words, List.length_cons] at hroom
    rw [Activation.exec_append (Code.whole_instr i), Activation.exec_instr]
    refine Avoids.bind ?_ fun s S' u h' => ?_
    · exact (hA.tick (by omega)).bind fun _ _ _ _ => hA.instr (hS ▸ ht)
    · obtain ⟨-, _, -, h'⟩ := bind_eq_ok.mp h'
      obtain ⟨U, V, T, hU, hV, rfl, rfl⟩ := Instr.run_eq_ok h'
      simp only [List.length_append] at hS
      apply ih
      · omega
      · rw [List.length_append]
        omega
  | @branch t yes no br c h j k hb ht hy hn hc ihy ihn ih =>
    obtain ⟨m, n, hx⟩ := Activation.exec_branch hb A ip S
    have hbr : Balanced ok M br h j := .test hb ht hy hn
    have hj := hbr.le
    have hlen : yes.length + no.length ≤ br.length := by
      obtain ⟨m, n, -, -, rfl⟩ := Code.branch_words hb
      simp only [List.length_append, List.length_cons]
      omega
    rw [List.length_append] at hroom
    rw [Activation.exec_append (Code.whole_branch hb)]
    refine Avoids.bind ?_ fun s S' u h' => ih (by omega) (hbr.length_eq hS h')
    rw [hx]
    refine (hA.tick (by omega)).bind fun _ _ _ _ => ?_
    refine Avoids.get.bind fun _ _ _ _ => ?_
    refine (hA.test (hS ▸ ht) _).bind fun _ x _ h' => ?_
    obtain ⟨answer, T⟩ := x
    obtain ⟨U, hU, rfl⟩ := Test.holds_eq_ok (ofExcept_eq_ok.mp h').1
    simp only [List.length_append] at hS
    have hT : T.length = h - t.takes := by omega
    cases answer with
    | true => exact ihy (by omega) hT
    | false => exact ihn (by omega) hT
  | @loop body lp c h k hl ht hb hc ihb ih =>
    obtain ⟨j, hx⟩ := Activation.exec_loop hl A ip S
    have hlp : Balanced ok M lp h h := .rounds hl ht hb
    have hlen : body.length ≤ lp.length := by
      obtain ⟨m, -, rfl⟩ := Code.loop_words hl
      simp only [List.length_append, List.length_cons]
      omega
    rw [List.length_append] at hroom
    rw [Activation.exec_append (Code.whole_loop hl)]
    refine Avoids.bind ?_ fun s S' u h' => ih (by omega) (hlp.length_eq hS h')
    rw [hx]
    refine (hA.tick (by omega)).bind fun _ _ _ _ => ?_
    have hbody : ∀ S, S.length = h → Avoids B (A.exec j body S) := fun S hS => ihb (by omega) hS
    exact .whileMatched hA.fuel ht hbody (fun _ _ _ _ => hb.length_eq) A.fuel hS
  | @call f pops n slots c h k hn hM ht hs hc ih =>
    subst hS
    simp only [List.length_append, List.length_cons] at hroom
    rw [Activation.exec_append (Code.whole_slots hn), Activation.exec_call hn]
    refine Avoids.bind ?_ fun s S' u h' => ?_
    · have hpop : S.popN pops.toNat = .ok _ := Stack.popN_eq_ok.mpr ⟨ht, rfl⟩
      refine (hA.tick (by omega)).bind fun _ _ _ _ => ?_
      refine (hA.slots hs).bind fun _ _ _ _ => ?_
      refine (hA.call f _).bind fun _ _ _ _ => ?_
      rw [hpop]
      exact (Avoids.pure _).bind fun _ _ _ _ => .pure _
    · simp only [bind_eq_ok, ofExcept_eq_ok, pure_eq_ok, Stack.popN_eq_ok] at h'
      obtain ⟨_, _, _, _, _, _, v, _, _, T, _, ⟨⟨_, rfl⟩, _⟩, rfl, _⟩ := h'
      apply ih
      · omega
      · rw [List.length_cons, List.length_drop]

end Balanced
end PegMachine
