import PegMachine.Code.Height
import PegMachine.Proofs.Code.Execution
import PegMachine.Proofs.Machine.Stack

/-! Balanced code: the heights of the stack on every path through it. What lies below the values
that balanced code takes is left as it is. -/
namespace PegMachine

variable {σ : Type} {ok : ℕ → ℕ → Prop} {M h k : ℕ} {a b c : Code} {S S' : Stack} {s s' : State σ}

namespace Instr

/-- The number of values an instruction takes from the stack or looks through. -/
@[simp] def takes : Instr → ℕ
  | .push _ | .pushPos | .acceptN _ | .acceptString _ | .fail _ | .rule _ | .reportHere
  | .silenceOn | .silenceOff => 0
  | .pop | .popPos => 1
  | .nip | .append | .text => 2
  | .popN n | .wrap n => n.toNat
  | .reportSaved k => k.toNat + 1

/-- The number of values it puts in their place. -/
@[simp] def gives : Instr → ℕ
  | .pop | .popPos | .popN _ | .reportHere | .silenceOn | .silenceOff => 0
  | .push _ | .pushPos | .nip | .append | .wrap _ | .acceptN _ | .acceptString _ | .fail _
  | .rule _ => 1
  | .text => 2
  | .reportSaved k => k.toNat + 1

/-- The instructions lead from height `h` to height `k` one after the other. -/
@[simp] def Leads (M : ℕ) : List Instr → ℕ → ℕ → Prop
  | [], h, k => h = k
  | i :: is, h, k => i.takes ≤ M ∧ i.takes ≤ h ∧ Leads M is (h - i.takes + i.gives) k

/-- An instruction that succeeds replaces the values it takes. -/
theorem run_eq_ok {env : Env σ} {rule : ℕ → Run σ Value} {i : Instr}
    (h : i.run env rule S s = .ok S' s') :
    ∃ U V T : Stack, U.length = i.takes ∧ V.length = i.gives ∧ S = U ++ T ∧ S' = V ++ T := by
  cases i with
  | push | pushPos | rule =>
    simp only [run, Run.bind_eq_ok, Run.pure_eq_ok] at h
    obtain ⟨_, _, _, rfl, _⟩ := h
    exact ⟨[], [_], S, rfl, rfl, rfl, rfl⟩
  | acceptN | fail =>
    simp only [run, Run.bind_eq_ok, Run.pure_eq_ok] at h
    obtain ⟨_, _, _, _, _, _, rfl, _⟩ := h
    exact ⟨[], [_], S, rfl, rfl, rfl, rfl⟩
  | acceptString =>
    simp only [run, Run.bind_eq_ok, Run.pure_eq_ok] at h
    obtain ⟨_, _, _, _, _, _, _, _, _, rfl, _⟩ := h
    exact ⟨[], [_], S, rfl, rfl, rfl, rfl⟩
  | pop =>
    simp only [run, Run.bind_eq_ok, Run.ofExcept_eq_ok, Run.pure_eq_ok, Stack.pop_eq_ok] at h
    obtain ⟨⟨v, T⟩, _, ⟨rfl, _⟩, rfl, _⟩ := h
    exact ⟨[v], [], T, rfl, rfl, rfl, rfl⟩
  | popPos =>
    simp only [run, Run.bind_eq_ok, Run.ofExcept_eq_ok, Run.pure_eq_ok, Stack.pop_eq_ok] at h
    obtain ⟨⟨v, T⟩, _, ⟨rfl, _⟩, _, _, _, _, _, _, rfl, _⟩ := h
    exact ⟨[v], [], T, rfl, rfl, rfl, rfl⟩
  | popN n =>
    simp only [run, Run.ofExcept_eq_ok, Stack.popN_eq_ok] at h
    obtain ⟨⟨hn, rfl⟩, _⟩ := h
    exact ⟨S.take n.toNat, [], S.drop n.toNat, List.length_take_of_le hn, rfl,
      (List.take_append_drop _ _).symm, rfl⟩
  | nip =>
    simp only [run, Run.ofExcept_eq_ok, Stack.nip_eq_ok] at h
    obtain ⟨⟨v, u, T, rfl, rfl⟩, _⟩ := h
    exact ⟨[v, u], [v], T, rfl, rfl, rfl, rfl⟩
  | append =>
    simp only [run, Run.ofExcept_eq_ok, Stack.append_eq_ok] at h
    obtain ⟨⟨v, vs, T, rfl, rfl⟩, _⟩ := h
    exact ⟨[v, .array vs], [_], T, rfl, rfl, rfl, rfl⟩
  | wrap n =>
    simp only [run, Run.ofExcept_eq_ok, Stack.wrap_eq_ok] at h
    obtain ⟨⟨hn, rfl⟩, _⟩ := h
    exact ⟨S.take n.toNat, [_], S.drop n.toNat, List.length_take_of_le hn, rfl,
      (List.take_append_drop _ _).symm, rfl⟩
  | text =>
    simp only [run, Run.bind_eq_ok, Run.ofExcept_eq_ok, Run.pure_eq_ok, Stack.pop_eq_ok,
      Stack.top_eq_ok] at h
    obtain ⟨⟨v, R⟩, _, ⟨rfl, _⟩, u, _, ⟨⟨T, rfl⟩, _⟩, _, _, _, _, _, _, rfl, _⟩ := h
    exact ⟨[v, u], [_, u], T, rfl, rfl, rfl, rfl⟩
  | reportSaved k =>
    simp only [run, Run.bind_eq_ok, Run.ofExcept_eq_ok, Run.pure_eq_ok, Stack.peek_eq_ok] at h
    obtain ⟨v, _, ⟨hk, _⟩, _, _, _, _, _, _, rfl, _⟩ := h
    obtain ⟨hk, _⟩ := List.getElem?_eq_some_iff.mp hk
    have hl : (S.take (k.toNat + 1)).length = k.toNat + 1 := List.length_take_of_le hk
    exact ⟨S.take (k.toNat + 1), S.take (k.toNat + 1), S.drop (k.toNat + 1), hl, hl,
      (List.take_append_drop _ _).symm, (List.take_append_drop _ _).symm⟩
  | reportHere | silenceOn | silenceOff =>
    simp only [run, Run.bind_eq_ok, Run.pure_eq_ok] at h
    obtain ⟨_, _, _, rfl, _⟩ := h
    exact ⟨[], [], S, rfl, rfl, rfl, rfl⟩

end Instr

namespace Test

attribute [simp] opcode Opcode.reads

/-- The number of values a test takes from the stack. -/
@[simp] def takes : Test → ℕ
  | .isShort | .isFull => 1
  | _ => 0

theorem takes_le_reads (t : Test) : t.takes ≤ t.opcode.reads := by
  cases t <;> simp [takes, Opcode.reads, opcode]

theorem holds_eq_ok {env : Env σ} {p : ℕ} {t : Test} {r : Bool × Stack}
    (h : t.holds env p S = .ok r) : ∃ U : Stack, U.length = t.takes ∧ S = U ++ r.2 := by
  cases t with
  | isTrue | isFailed | isMatched | string | folded | charClass =>
    obtain ⟨_, _, h⟩ := except_bind_eq_ok.mp h
    obtain rfl := Except.ok.inj h
    exact ⟨[], rfl, rfl⟩
  | any =>
    obtain rfl := Except.ok.inj h
    exact ⟨[], rfl, rfl⟩
  | isShort | isFull =>
    simp only [holds, except_bind_eq_ok, Stack.pop_eq_ok] at h
    obtain ⟨⟨v, T⟩, rfl, _, _, _, _, _, _, h⟩ := h
    obtain rfl := Except.ok.inj h
    exact ⟨[v], rfl, rfl⟩

end Test

/-- `Balanced ok M c h k`: every path through the code leads from height `h` to height `k`. No
instruction takes more values than there are, or more than `M`, and a slot that a call reads is `ok`
for the height there. -/
inductive Balanced (ok : ℕ → ℕ → Prop) (M : ℕ) : Code → ℕ → ℕ → Prop
  | nil (h : ℕ) : Balanced ok M [] h h
  | instr {i : Instr} {c : Code} {h k : ℕ} (hM : i.takes ≤ M) (ht : i.takes ≤ h)
      (hc : Balanced ok M c (h - i.takes + i.gives) k) : Balanced ok M (i.words ++ c) h k
  | branch {t : Test} {yes no br c : Code} {h j k : ℕ}
      (hb : Code.branch t.words yes no = .ok br) (ht : t.opcode.reads ≤ h)
      (hy : Balanced ok M yes (h - t.takes) j) (hn : Balanced ok M no (h - t.takes) j)
      (hc : Balanced ok M c j k) : Balanced ok M (br ++ c) h k
  | loop {body lp c : Code} {h k : ℕ} (hl : Code.loop (Code.op .whileMatched) body = .ok lp)
      (ht : 0 < h) (hb : Balanced ok M body h h) (hc : Balanced ok M c h k) :
      Balanced ok M (lp ++ c) h k
  | call {f pops n : UInt32} {slots c : Code} {h k : ℕ} (hn : n.toNat = slots.length)
      (hM : pops.toNat ≤ M) (ht : pops.toNat ≤ h) (hs : ∀ x ∈ slots, ok h x.toNat)
      (hc : Balanced ok M c (h - pops.toNat + 1) k) :
      Balanced ok M ((Opcode.call.word :: f :: pops :: n :: slots) ++ c) h k

namespace Balanced

theorem append {j : ℕ} (ha : Balanced ok M a h j) (hb : Balanced ok M b j k) :
    Balanced ok M (a ++ b) h k := by
  induction ha with
  | nil => exact hb
  | instr hM ht _ ih =>
    rw [List.append_assoc]
    exact .instr hM ht (ih hb)
  | branch hbr ht hy hn _ _ _ ih =>
    rw [List.append_assoc]
    exact .branch hbr ht hy hn (ih hb)
  | loop hl ht hbody _ _ ih =>
    rw [List.append_assoc]
    exact .loop hl ht hbody (ih hb)
  | call hn hM ht hs _ ih =>
    rw [List.append_assoc]
    exact .call hn hM ht hs (ih hb)

theorem seq {is : List Instr} (hl : Instr.Leads M is h k) : Balanced ok M (Code.seq is) h k := by
  induction is generalizing h with
  | nil =>
    obtain rfl : h = k := hl
    exact .nil h
  | cons i is ih => exact .instr hl.1 hl.2.1 (ih hl.2.2)

theorem test {t : Test} {yes no br : Code} (hb : Code.branch t.words yes no = .ok br)
    (ht : t.opcode.reads ≤ h) (hy : Balanced ok M yes (h - t.takes) k)
    (hn : Balanced ok M no (h - t.takes) k) : Balanced ok M br h k := by
  have hc := branch hb ht hy hn (.nil k)
  rwa [List.append_nil] at hc

theorem rounds {body lp : Code} (hl : Code.loop (Code.op .whileMatched) body = .ok lp)
    (ht : 0 < h) (hb : Balanced ok M body h h) : Balanced ok M lp h h := by
  have hc := loop hl ht hb (.nil h)
  rwa [List.append_nil] at hc

theorem whole (hc : Balanced ok M c h k) : c.Whole := by
  induction hc with
  | nil => exact Code.whole_nil
  | instr _ _ _ ih => exact (Code.whole_instr _).append ih
  | branch hb _ _ _ _ _ _ ih => exact (Code.whole_branch hb).append ih
  | loop hl _ _ _ _ ih => exact (Code.whole_loop hl).append ih
  | call hn _ _ _ _ ih => exact (Code.whole_slots hn).append ih

end Balanced

/-- Two ways to cut a stack: the shorter top is a part of the longer one. -/
theorem Stack.append_cut {U T V R : Stack} (h : U ++ T = V ++ R) (hl : V.length ≤ U.length) :
    ∃ X : Stack, U = V ++ X ∧ R = X ++ T := by
  obtain ⟨X, hV, hT⟩ | ⟨X, hU, hR⟩ := List.append_eq_append_iff.mp h
  · have hX : X = [] := by
      have := congrArg List.length hV
      rw [List.length_append] at this
      exact List.eq_nil_of_length_eq_zero (by omega)
    subst hX
    exact ⟨[], by simpa using hV.symm, hT.symm⟩
  · exact ⟨X, hU, hR⟩

open Run

theorem Run.whileMatched_frame {body : Stack → Run σ Stack} {T : Stack}
    (hb : ∀ U s S' s', U.length = h → body (U ++ T) s = .ok S' s' →
      ∃ V : Stack, V.length = h ∧ S' = V ++ T)
    (fuel : ℕ) {U : Stack} (hU : U.length = h)
    (hr : whileMatched body fuel (U ++ T) s = .ok S' s') :
    ∃ V : Stack, V.length = h ∧ S' = V ++ T := by
  induction fuel generalizing U s with
  | zero =>
    rw [whileMatched, bind_eq_ok] at hr
    obtain ⟨v, u, -, hr⟩ := hr
    split at hr
    · obtain ⟨rfl, -⟩ := pure_eq_ok.mp hr
      exact ⟨U, hU, rfl⟩
    · cases hr
  | succ fuel ih =>
    rw [whileMatched, bind_eq_ok] at hr
    obtain ⟨v, u, -, hr⟩ := hr
    split at hr
    · obtain ⟨rfl, -⟩ := pure_eq_ok.mp hr
      exact ⟨U, hU, rfl⟩
    · obtain ⟨S1, s1, h1, hr⟩ := bind_eq_ok.mp hr
      obtain ⟨V, hV, rfl⟩ := hb U u S1 s1 hU h1
      exact ih hV hr

/-- A run of balanced code that ends leaves the height that was foreseen, and every value below
those it takes. -/
theorem Balanced.frame (hc : Balanced ok M c h k) {A : Activation σ} {ip : ℕ} {U T : Stack}
    (hU : U.length = h) (hr : A.exec ip c (U ++ T) s = .ok S' s') :
    ∃ V : Stack, V.length = k ∧ S' = V ++ T := by
  induction hc generalizing ip U s S' s' with
  | nil h =>
    rw [Activation.exec_nil, pure_eq_ok] at hr
    exact ⟨U, hU, hr.1.symm⟩
  | @instr i c h k hM ht hc ih =>
    rw [Activation.exec_append (Code.whole_instr i), Activation.exec_instr] at hr
    obtain ⟨S1, s1, h1, hr⟩ := bind_eq_ok.mp hr
    obtain ⟨-, _, -, h1⟩ := bind_eq_ok.mp h1
    obtain ⟨U', V, R, hU', hV, hS, rfl⟩ := Instr.run_eq_ok h1
    obtain ⟨X, rfl, rfl⟩ := Stack.append_cut hS (by omega)
    rw [← List.append_assoc] at hr
    rw [List.length_append] at hU
    refine ih ?_ hr
    rw [List.length_append]
    omega
  | @branch t yes no br c h j k hb ht hy hn hc ihy ihn ih =>
    obtain ⟨m, n, hx⟩ := Activation.exec_branch hb A ip (U ++ T)
    rw [Activation.exec_append (Code.whole_branch hb), hx] at hr
    simp only [bind_eq_ok, ofExcept_eq_ok] at hr
    obtain ⟨S1, s1, ⟨-, s2, -, s3, s4, -, ⟨answer, S2⟩, _, ⟨hh, rfl⟩, hr1⟩, hr⟩ := hr
    obtain ⟨U', hU', hS⟩ := Test.holds_eq_ok hh
    obtain ⟨X, rfl, rfl⟩ := Stack.append_cut hS (by have := t.takes_le_reads; omega)
    rw [List.length_append] at hU
    have hX : X.length = h - t.takes := by omega
    obtain ⟨V, hV, rfl⟩ : ∃ V : Stack, V.length = j ∧ S1 = V ++ T := by
      split at hr1
      · exact ihy hX hr1
      · exact ihn hX hr1
    exact ih hV hr
  | @loop body lp c h k hl ht hb hc ihb ih =>
    obtain ⟨j, hx⟩ := Activation.exec_loop hl A ip (U ++ T)
    rw [Activation.exec_append (Code.whole_loop hl), hx] at hr
    obtain ⟨S1, s1, h1, hr⟩ := bind_eq_ok.mp hr
    obtain ⟨-, _, -, h1⟩ := bind_eq_ok.mp h1
    obtain ⟨V, hV, rfl⟩ := whileMatched_frame (fun U s S' s' hU hr => ihb hU hr) A.fuel hU h1
    exact ih hV hr
  | @call f pops n slots c h k hn hM ht hs hc ih =>
    rw [Activation.exec_append (Code.whole_slots hn), Activation.exec_call hn] at hr
    simp only [bind_eq_ok, ofExcept_eq_ok, pure_eq_ok, Stack.popN_eq_ok] at hr
    obtain ⟨S1, s1, ⟨-, _, -, args, _, -, v, _, -, R, _, ⟨⟨_, rfl⟩, _⟩, rfl, _⟩, hr⟩ := hr
    rw [List.drop_append_of_le_length (by omega), ← List.cons_append] at hr
    refine ih ?_ hr
    rw [List.length_cons, List.length_drop]
    omega

/-- Balanced code runs in the same way wherever it stands. -/
theorem Balanced.exec_eq (hc : Balanced ok M c h k) (A : Activation σ) (i j : ℕ) (S : Stack) :
    A.exec i c S = A.exec j c S := by
  induction hc generalizing i j S with
  | nil => rw [Activation.exec_nil, Activation.exec_nil]
  | @instr n c h k hM ht hc ih =>
    rw [Activation.exec_append (Code.whole_instr n), Activation.exec_append (Code.whole_instr n),
      Activation.exec_instr, Activation.exec_instr]
    exact bind_congr fun S' => ih _ _ S'
  | @branch t yes no br c h j' k hb ht hy hn hc ihy ihn ih =>
    obtain ⟨a, b, hi⟩ := Activation.exec_branch hb A i S
    obtain ⟨a', b', hj⟩ := Activation.exec_branch hb A j S
    rw [Activation.exec_append (Code.whole_branch hb), Activation.exec_append (Code.whole_branch hb),
      hi, hj]
    have hbodies : ∀ x : Bool × Stack, (if x.1 then A.exec a yes x.2 else A.exec b no x.2) =
        if x.1 then A.exec a' yes x.2 else A.exec b' no x.2 := by
      intro x
      rw [ihy a a', ihn b b']
    simp only [bind_assoc]
    refine bind_congr fun _ => bind_congr fun s => bind_congr fun x => ?_
    rw [hbodies x]
    exact bind_congr fun S' => ih _ _ S'
  | @loop body lp c h k hl ht hb hc ihb ih =>
    obtain ⟨a, hi⟩ := Activation.exec_loop hl A i S
    obtain ⟨a', hj⟩ := Activation.exec_loop hl A j S
    have hbody : A.exec a body = A.exec a' body := funext fun S' => ihb a a' S'
    rw [Activation.exec_append (Code.whole_loop hl), Activation.exec_append (Code.whole_loop hl),
      hi, hj, hbody]
    exact bind_congr fun S' => ih _ _ S'
  | @call f pops n slots c h k hn hM ht hs hc ih =>
    rw [Activation.exec_append (Code.whole_slots hn), Activation.exec_append (Code.whole_slots hn),
      Activation.exec_call hn, Activation.exec_call hn]
    exact bind_congr fun S' => ih _ _ S'

end PegMachine
