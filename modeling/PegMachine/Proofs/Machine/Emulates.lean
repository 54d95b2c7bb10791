import PegMachine.Proofs.Compile.Contract
import PegMachine.Proofs.Machine.Follows

/-! Code that emulates a walk, put together from its parts: one rule for each instruction, for
tests, for loops and for calls. -/
namespace PegMachine

variable {σ α β γ : Type} {A : Activation σ} {S S' T U : Stack} {a b c : Code} {i : Instr}
  {R : Stack → α → Prop} {Q : Stack → β → Prop} {w : Walk σ β} {v : Value} {p : ℕ}

/-- What a walk reads while the rule runs. -/
def Activation.walkEnv (A : Activation σ) : Walk.Env σ := ⟨A.env.host, A.env.input⟩

/-- Wherever it stands, the code follows the walk from stack `S`; `Q` relates the stack it leaves
with the result. -/
def Emulates (A : Activation σ) (c : Code) (S : Stack) (w : Walk σ β) (Q : Stack → β → Prop) :
    Prop :=
  ∀ ip, Follows A.env.host (A.exec ip c S) w Q

/-- The code puts the value of the walk on the stack. -/
def Computes (A : Activation σ) (c : Code) (S : Stack) (w : Walk σ Value) : Prop :=
  Emulates A c S w fun S' v => S' = v :: S

/-- The instruction does nothing but change the stack. -/
def Instr.Moves (A : Activation σ) (i : Instr) (S S' : Stack) : Prop :=
  ∀ s, i.run A.env A.rule S s = .ok S' s

theorem Value.eq_failed (h : v.isFailed = true) : v = .failed := by
  cases v <;> first | rfl | cases h

theorem Value.eq_failed_or (v : Value) : v = .failed ∨ v.isFailed = false := by
  cases hv : v.isFailed with
  | true => exact .inl (eq_failed hv)
  | false => exact .inr rfl

namespace Emulates

theorem nil {x : β} (h : Q S x) : Emulates A [] S (pure x) Q := by
  intro ip
  rw [Activation.exec_nil]
  exact .pure h

theorem append {w : Walk σ α} {w' : α → Walk σ β} (ha : a.Whole) (h : Emulates A a S w R)
    (hk : ∀ S' x, R S' x → Emulates A b S' (w' x) Q) : Emulates A (a ++ b) S (w >>= w') Q := by
  intro ip
  rw [Activation.exec_append ha]
  exact (h ip).bind fun S' x hx => hk S' x hx _

/-- Code at the start that has nothing to do with the walk. -/
theorem before (ha : a.Whole) (h : Emulates A a S (pure ()) fun S₁ _ => S₁ = S')
    (hk : Emulates A b S' w Q) : Emulates A (a ++ b) S w Q := by
  rw [← pure_bind () fun _ => w]
  refine append ha h ?_
  rintro S₁ _ rfl
  exact hk

/-- Code at the end that has nothing to do with the walk. -/
theorem after {R : Stack → β → Prop} (ha : a.Whole) (h : Emulates A a S w R)
    (hk : ∀ S' x, R S' x → Emulates A b S' (pure x) Q) : Emulates A (a ++ b) S w Q := by
  rw [← bind_pure w]
  exact append ha h hk

theorem instr (hi : Follows A.env.host (i.run A.env A.rule S) w Q) :
    Emulates A i.words S w Q := by
  intro ip
  rw [Activation.exec_instr]
  exact hi.tick

theorem step {w : Walk σ α} {w' : α → Walk σ β}
    (hi : Follows A.env.host (i.run A.env A.rule S) w R)
    (hk : ∀ S' x, R S' x → Emulates A c S' (w' x) Q) : Emulates A (i.words ++ c) S (w >>= w') Q :=
  append (Code.whole_instr i) (instr hi) hk

theorem moves (hi : i.Moves A S S') (hk : Emulates A c S' w Q) :
    Emulates A (i.words ++ c) S w Q := by
  intro ip
  rw [Activation.exec_words]
  exact .tick (.silent (fun s => ⟨s, hi s, rfl⟩) (hk _))

/-- A test, whose answer may depend on the place in the input. -/
theorem branch {t : Test} {yes no br : Code} {answer : ℕ → Bool}
    (hb : Code.branch t.words yes no = .ok br) (ht : ∀ p, t.holds A.env p S = .ok (answer p, S'))
    (hk : ∀ ip s, Matches A.env.host Q (A.exec ip (if answer s.pos then yes else no) S' s)
      (w s.toProgress)) : Emulates A br S w Q := by
  intro ip s
  obtain ⟨j, k, hx⟩ := Activation.exec_branch hb A ip S
  rw [hx]
  refine .tick fun n => ?_
  change Matches _ _ ((Run.ofExcept (t.holds A.env s.pos S) >>= fun x =>
    if x.1 then A.exec j yes x.2 else A.exec k no x.2) _) _
  rw [ht]
  have hyes := hk j { s with steps := n }
  have hno := hk k { s with steps := n }
  cases h : answer s.pos with
  | true =>
    rw [if_pos h] at hyes
    exact hyes
  | false =>
    rw [if_neg (by simp [h])] at hno
    exact hno

/-- A test of the stack. -/
theorem test {t : Test} {yes no br : Code} (answer : Bool)
    (hb : Code.branch t.words yes no = .ok br) (ht : ∀ p, t.holds A.env p S = .ok (answer, S'))
    (hk : Emulates A (if answer then yes else no) S' w Q) : Emulates A br S w Q :=
  branch hb ht hk

/-- A test for the mark of failure. -/
theorem ifFailed {yes no br : Code} {w w' : Walk σ β}
    (hb : Code.branch (Test.words .isFailed) yes no = .ok br)
    (hy : v = .failed → Emulates A yes (v :: S) w Q)
    (hn : v.isFailed = false → Emulates A no (v :: S) w' Q) :
    Emulates A br (v :: S) (if v.isFailed then w else w') Q := by
  refine test v.isFailed hb (fun _ => rfl) ?_
  cases hv : v.isFailed with
  | true => exact hy (Value.eq_failed hv)
  | false => exact hn hv

theorem ifMatched {yes no br : Code} {w w' : Walk σ β}
    (hb : Code.branch (Test.words .isMatched) yes no = .ok br)
    (hy : v.isFailed = false → Emulates A yes (v :: S) w' Q)
    (hn : v = .failed → Emulates A no (v :: S) w Q) :
    Emulates A br (v :: S) (if v.isFailed then w else w') Q := by
  refine test (!v.isFailed) hb (fun _ => rfl) ?_
  cases hv : v.isFailed with
  | true => exact hn (Value.eq_failed hv)
  | false => exact hy hv

/-- A test of the input. -/
theorem look {t : Test} {yes no br : Code} {answer : ℕ → Bool} {w w' : ℕ → Walk σ β}
    (hb : Code.branch t.words yes no = .ok br) (ht : ∀ p, t.holds A.env p S = .ok (answer p, S))
    (hy : Emulates A yes S (Walk.place >>= w) Q) (hn : Emulates A no S (Walk.place >>= w') Q) :
    Emulates A br S (Walk.place >>= fun p => if answer p then w p else w' p) Q := by
  refine branch hb ht fun ip s => ?_
  change Matches _ _ _ ((if answer s.pos then w s.pos else w' s.pos) s.toProgress)
  cases answer s.pos with
  | true => exact hy ip s
  | false => exact hn ip s

/-- The rounds of a loop gather the values that its body finds. The loop ends with the mark of
failure on the array. -/
theorem rounds {body lp : Code} {again : List Value → Walk σ Value}
    (hl : Code.loop (Code.op .whileMatched) body = .ok lp)
    (hb : ∀ vs v, Emulates A body (v :: .array vs :: S) (again (vs ++ [v]))
      fun S' v' => S' = v' :: .array (vs ++ [v]) :: S) (vs : List Value) (v : Value) :
    Emulates A lp (v :: .array vs :: S) (Walk.gather again A.fuel vs v)
      fun S' ws => S' = .failed :: .array ws :: S := by
  intro ip
  obtain ⟨j, hx⟩ := Activation.exec_loop hl A ip (v :: .array vs :: S)
  rw [hx]
  clear hx
  refine .tick ?_
  generalize A.fuel = fuel
  -- one round takes one unit of fuel, on both sides
  induction fuel generalizing vs v with
  | zero =>
    rw [Run.whileMatched, Walk.gather]
    rcases v.eq_failed_or with rfl | hv
    · exact .pure rfl
    · intro s
      change Matches _ _ ((if v.isFailed then _ else _ : Run σ Stack) s) _
      rw [hv]
      exact .fuel
  | succ fuel ih =>
    rw [Run.whileMatched, Walk.gather]
    rcases v.eq_failed_or with rfl | hv
    · exact .pure rfl
    · intro s
      change Matches _ _ ((if v.isFailed then _ else _ : Run σ Stack) s) _
      rw [hv]
      refine (hb vs v j s).bind fun S' v' t hS => ?_
      subst hS
      exact ih _ _ t

end Emulates

section Instructions

open Walk

theorem Instr.moves_push {k : UInt32} (h : A.env.program.value k = .ok v) :
    (Instr.push k).Moves A S (v :: S) := by
  intro s
  rw [Instr.run, h]
  rfl

theorem Instr.moves_pop : Instr.pop.Moves A (v :: S) S := fun _ => rfl

theorem Instr.moves_nip {u : Value} : Instr.nip.Moves A (v :: u :: S) (v :: S) := fun _ => rfl

theorem Instr.moves_append {vs : List Value} :
    Instr.append.Moves A (v :: .array vs :: S) (.array (vs ++ [v]) :: S) := fun _ => rfl

theorem Instr.moves_popN {k : UInt32} (h : k.toNat = U.length) :
    (Instr.popN k).Moves A (U ++ S) S := by
  intro s
  have hd : (U ++ S).popN k.toNat = .ok S := by
    rw [Stack.popN_eq_ok, h, List.drop_left]
    exact ⟨by simp, rfl⟩
  rw [Instr.run, hd]
  rfl

theorem Instr.moves_wrap {k : UInt32} (h : k.toNat = U.length) :
    (Instr.wrap k).Moves A (U ++ S) (.array U.reverse :: S) := by
  intro s
  have hd : (U ++ S).wrap k.toNat = .ok (.array U.reverse :: S) := by
    rw [Stack.wrap_eq_ok, h, List.drop_left, List.take_left]
    exact ⟨by simp, rfl⟩
  rw [Instr.run, hd]
  rfl

namespace Emulates

/-- An instruction that puts on the stack what depends on the place in the input. -/
theorem places {T : ℕ → Stack} {w : ℕ → Walk σ β}
    (hi : ∀ s, i.run A.env A.rule S s = .ok (T s.pos) s)
    (hk : ∀ p, Emulates A c (T p) (w p) Q) : Emulates A (i.words ++ c) S (place >>= w) Q := by
  have hf : Follows A.env.host (i.run A.env A.rule S) place fun S' p => S' = T p := by
    intro s
    rw [hi]
    exact .ok rfl
  refine step hf fun S' p hS => ?_
  subst hS
  exact hk p

/-- An instruction that changes the progress. -/
theorem progresses {f : Progress σ → Progress σ}
    (hi : ∀ s, ∃ t, i.run A.env A.rule S s = .ok S' t ∧ t.toProgress = f s.toProgress)
    (hk : Emulates A c S' w Q) : Emulates A (i.words ++ c) S (modify f >>= fun _ => w) Q := by
  have hf : Follows A.env.host (i.run A.env A.rule S) (modify f) fun T _ => T = S' := by
    intro s
    obtain ⟨t, ht, hp⟩ := hi s
    rw [ht]
    change Matches _ _ _ (.ok PUnit.unit (f s.toProgress))
    rw [← hp]
    exact .ok rfl
  refine step hf fun T _ hT => ?_
  subst hT
  exact hk

theorem pushPos {w : ℕ → Walk σ β} (hk : ∀ p, Emulates A c (.pos p :: S) (w p) Q) :
    Emulates A (Instr.pushPos.words ++ c) S (place >>= w) Q :=
  places (fun _ => rfl) hk

theorem popPos (hk : Emulates A c S w Q) :
    Emulates A (Instr.popPos.words ++ c) (.pos p :: S) (seek p >>= fun _ => w) Q :=
  progresses (fun s => ⟨{ s with pos := p }, rfl, rfl⟩) hk

theorem text {w : ℕ → Walk σ β}
    (hk : ∀ q, Emulates A c (.string (A.env.input.slice p q) :: .pos p :: S) (w q) Q) :
    Emulates A (Instr.text.words ++ c) (v :: .pos p :: S) (place >>= w) Q :=
  places (fun _ => rfl) hk

theorem silenceOn (hk : Emulates A c S w Q) :
    Emulates A (Instr.silenceOn.words ++ c) S
      ((modify fun s => { s with silence := s.silence + 1 }) >>= fun _ => w) Q :=
  progresses (fun s => ⟨{ s with silence := s.silence + 1 }, rfl, rfl⟩) hk

theorem silenceOff (hk : Emulates A c S w Q) :
    Emulates A (Instr.silenceOff.words ++ c) S
      ((modify fun s => { s with silence := s.silence - 1 }) >>= fun _ => w) Q :=
  progresses (fun s => ⟨{ s with silence := s.silence - 1 }, rfl, rfl⟩) hk

end Emulates

namespace Computes

theorem accept (n : UInt32) :
    Computes A (Instr.acceptN n).words S (accept A.walkEnv n.toNat) := by
  refine .instr fun s => ?_
  exact .ok (t := { s with pos := min (s.pos + n.toNat) A.env.input.size }) rfl

theorem acceptString {k : UInt32} {t : String} (h : A.env.program.string k = .ok t) :
    Computes A (Instr.acceptString k).words S
      (place >>= fun p => seek (p + t.length) >>= fun _ => pure (.string t)) := by
  refine .instr fun s => ?_
  rw [Instr.run, h]
  exact .ok (t := { s with pos := s.pos + t.length }) rfl

theorem expecting {k : UInt32} {e : Expectation} (h : A.env.program.expectation k = .ok e) :
    Computes A (Instr.fail k).words S (expecting e) := by
  refine .instr fun s => ?_
  rw [Instr.run, h]
  exact .ok (t := { s with toProgress := s.toProgress.fail e }) rfl

theorem rule {n : UInt32} {w : Walk σ Value} (h : Follows A.env.host (A.rule n.toNat) w Eq) :
    Computes A (Instr.rule n).words S w := by
  refine .instr ?_
  rw [← bind_pure w, Instr.run]
  refine h.bind fun v v' hv => ?_
  subst hv
  exact .pure rfl

end Computes

end Instructions

namespace Scope

variable {sp : ℤ} {s : Scope} {ls : Labels Value}

/-- The labels are in scope with these values: each stands where its slot lies in the stack, whose
top is at slot `sp`. -/
def Reads (sp : ℤ) (S : Stack) : Scope → Labels Value → Prop :=
  Labels.Related fun slot v => slot ≤ sp ∧ S[(sp - slot).toNat]? = some v

theorem Reads.nil : Reads sp S [] [] := List.Forall₂.nil

theorem Reads.push (h : s.Reads sp S ls) (v : Value) : s.Reads (sp + 1) (v :: S) ls := by
  refine h.imp fun x y hxy => ⟨hxy.1, by omega, ?_⟩
  have hn : (sp + 1 - x.2).toNat = (sp - x.2).toNat + 1 := by omega
  rw [hn, List.getElem?_cons_succ]
  exact hxy.2.2

/-- A label that the expression binds reads the value on top. -/
theorem Reads.bind (h : s.Reads sp S ls) (v : Value) (e : Expr) :
    Reads (sp + 1) (v :: S) (e.bind (sp + 1) s) (e.bind v ls) := by
  refine Labels.Related.bind (h.push v) ⟨le_rfl, ?_⟩ e
  rw [Int.sub_self]
  rfl

theorem Reads.peekAll (h : s.Reads sp S ls) {slots : Code} (ho : s.offsets sp = .ok slots) :
    S.peekAll slots = .ok ls.values := by
  induction h generalizing slots with
  | nil =>
    obtain rfl := Except.ok.inj ho
    rfl
  | cons hxy _ ih =>
    obtain ⟨k, hk, ho⟩ := except_bind_eq_ok.mp ho
    obtain ⟨ks, hks, ho⟩ := except_bind_eq_ok.mp ho
    obtain rfl := Except.ok.inj ho
    have hv := Stack.peek_eq_ok.mpr hxy.2.2
    rw [Stack.peekAll, offset_eq_ok hk, hv, ih hks]
    rfl

end Scope

section Calls

variable {sp : ℤ} {s : Scope} {ls : Labels Value} {f : UInt32} {code : String} {n : ℕ}

theorem estate_get_bind {τ : Type} (k : τ → EStateM Stop τ α) (t : τ) : (get >>= k) t = k t t := rfl

theorem Run.callHost_matches (hf : A.env.program.function f = .ok ⟨ls.names, code⟩) (t : State σ) :
    Matches A.env.host Eq (Run.callHost A.env f ls.values t)
      (Walk.call A.walkEnv t.reported code ls t.toProgress) := by
  rcases hr : A.env.host ⟨ls.names, code⟩ ⟨A.env.input, t.reported, t.pos⟩ ls.values t.host with
    ⟨answer, h⟩
  have hp : t.toProgress.call A.env.host A.env.input t.reported ⟨ls.names, code⟩ ls.values =
      (answer, { t.toProgress with host := h }) := by
    rw [Progress.call, hr]
  unfold Run.callHost Walk.call
  simp only [hf, Run.ofExcept, pure_bind, estate_get_bind, Activation.walkEnv, hp]
  cases answer with
  | ok v => exact .ok (t := { t with host := h }) rfl
  | error e => exact .host (t := { t with host := h }) ⟨_, _, _, _, hr⟩

/-- A call behind the instruction that says where its text begins. -/
theorem Emulates.call {call : Code} {w : Value → Walk σ β} (start : ℕ → ℕ)
    (hi : ∀ t, i.run A.env A.rule S t = .ok S { t with reported := start t.pos })
    (hc : Code.call f n s sp = .ok call) (hf : A.env.program.function f = .ok ⟨ls.names, code⟩)
    (hs : s.Reads sp S ls) (hn : n ≤ S.length)
    (hk : ∀ v, Emulates A c (v :: S.drop n) (w v) Q) :
    Emulates A (i.words ++ (call ++ c)) S
      (Walk.place >>= fun q => Walk.call A.walkEnv (start q) code ls >>= w) Q := by
  have hw := Code.whole_call hc
  obtain ⟨slots, pops, k, ho, hpops, hk', rfl⟩ := Code.call_words hc
  have hpop : S.popN pops.toNat = .ok (S.drop n) := by
    rw [Stack.popN_eq_ok, hpops]
    exact ⟨hn, rfl⟩
  intro ip t
  rw [Activation.exec_words]
  refine .tick fun m => ?_
  change Matches _ _ (EStateM.bind (i.run A.env A.rule S) _ _)
    ((Walk.call A.walkEnv (start t.pos) code ls >>= w) t.toProgress)
  rw [EStateM.bind, hi]
  simp only [Activation.exec_append hw, Activation.exec_call hk', hs.peekAll ho, hpop,
    Run.ofExcept, pure_bind, bind_assoc]
  refine .tick fun m' => ?_
  refine (Run.callHost_matches hf { t with reported := start t.pos, steps := m' }).bind ?_
  intro v v' t' hv
  subst hv
  exact hk v _ t'

theorem Emulates.callHere {call : Code} {w : Value → Walk σ β}
    (hc : Code.call f n s sp = .ok call) (hf : A.env.program.function f = .ok ⟨ls.names, code⟩)
    (hs : s.Reads sp S ls) (hn : n ≤ S.length)
    (hk : ∀ v, Emulates A c (v :: S.drop n) (w v) Q) :
    Emulates A (Instr.reportHere.words ++ (call ++ c)) S
      (Walk.place >>= fun q => Walk.call A.walkEnv q code ls >>= w) Q :=
  Emulates.call id (fun _ => rfl) hc hf hs hn hk

theorem Emulates.callSaved {call : Code} {k : UInt32} {w : Value → Walk σ β}
    (hp : S[k.toNat]? = some (.pos p)) (hc : Code.call f n s sp = .ok call)
    (hf : A.env.program.function f = .ok ⟨ls.names, code⟩) (hs : s.Reads sp S ls)
    (hn : n ≤ S.length) (hk : ∀ v, Emulates A c (v :: S.drop n) (w v) Q) :
    Emulates A ((Instr.reportSaved k).words ++ (call ++ c)) S
      (Walk.call A.walkEnv p code ls >>= w) Q := by
  refine Emulates.call (fun _ => p) ?_ hc hf hs hn hk
  intro t
  rw [Instr.run, Stack.peek_eq_ok.mpr hp]
  rfl

end Calls

end PegMachine
