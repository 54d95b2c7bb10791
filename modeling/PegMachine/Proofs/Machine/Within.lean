import PegMachine.Proofs.Machine.Stretches

/-! What may end a walk by place. No word, body or step does: the check, the listing and the machine stay
inside the code whatever its words. A run may be refused memory for the arguments of a call; nothing else
depends on memory, so that a run which is refused none is that of the tree. -/
namespace PegMachine

variable {σ : Type}

open Run Watched

namespace Watched

variable {α β : Type} {room : ℕ → ℕ → Bool}

theorem run_bind (x : Watched (Run σ) α) (f : α → Watched (Run σ) β) (s : State σ) :
    (x >>= f).run s = match x.run s with
      | .ok (.ok a) t => (f a).run t
      | .ok (.error c) t => .ok (.error c) t
      | .error e t => .error e t := by
  change EStateM.bind x.run (ExceptT.bindCont f) s = _
  unfold EStateM.bind
  cases x.run s with
  | error e t => rfl
  | ok v t => cases v <;> rfl

/-- The walk crashes for want of memory. -/
def Refused (room : ℕ → ℕ → Bool) (x : Watched (Run σ) α) (s : State σ) : Prop :=
  ∃ n t, room t.steps n = false ∧ x.run s = .ok (.error (.memory n)) t

/-- `x` ends as `y` does, unless it is refused memory. -/
def Affords (room : ℕ → ℕ → Bool) (x y : Watched (Run σ) α) : Prop :=
  ∀ s, x.run s = y.run s ∨ Refused room x s

namespace Affords

theorem refl (x : Watched (Run σ) α) : Affords room x x := fun _ => .inl rfl

theorem bind {x y : Watched (Run σ) α} {f g : α → Watched (Run σ) β} (hx : Affords room x y)
    (hf : ∀ a, Affords room (f a) (g a)) : Affords room (x >>= f) (y >>= g) := by
  intro s
  rcases hx s with h | ⟨n, t, hn, h⟩
  · simp only [Refused, run_bind, h]
    cases y.run s with
    | error e t => exact .inl rfl
    | ok v t =>
      cases v with
      | error c => exact .inl rfl
      | ok a => exact hf a t
  · exact .inr ⟨n, t, hn, by rw [run_bind, h]⟩

theorem reserve (n : ℕ) :
    Affords (σ := σ) room (reserve room n) (Watched.reserve (fun _ _ => true) n) := by
  intro s
  by_cases h : n = 0 ∨ room s.steps n
  · left
    rw [reserve_granted, reserve_run, if_pos h]
    rfl
  · have hn : room s.steps n = false := by simpa using (not_or.mp h).2
    exact .inr ⟨n, s, hn, by rw [reserve_run, if_neg h]⟩

theorem enter {x y : Watched (Run σ) α} (h : Affords room x y) (code : Code) (r body : Stretch) :
    Affords room (enter code r body x) (Watched.enter code r body y) := by
  unfold Watched.enter
  split
  · exact h
  · exact .refl _

theorem advance {x y : Watched (Run σ) α} (r : Stretch) {ip next : ℕ}
    (h : ip < next → next ≤ r.stop → Affords room x y) :
    Affords room (advance r ip next x) (Watched.advance r ip next y) := by
  unfold Watched.advance
  split
  · next hin => exact h hin.1 hin.2
  · exact .refl _

theorem whileMatched {body body' : Stack → Watched (Run σ) Stack}
    (h : ∀ st, Affords room (body st) (body' st)) (fuel : ℕ) (st : Stack) :
    Affords room (whileMatched body fuel st) (Watched.whileMatched body' fuel st) := by
  induction fuel generalizing st with
  | zero => exact .refl _
  | succ fuel ih =>
    refine (refl _).bind fun v => ?_
    split
    · exact .refl _
    · exact (h st).bind ih

theorem instr {rule rule' : ℕ → Watched (Run σ) Value} (h : ∀ i, Affords room (rule i) (rule' i))
    (env : Env σ) (i : Instr) (st : Stack) :
    Affords room (instr env rule i st) (Watched.instr env rule' i st) := by
  cases i with
  | rule i => exact (h i.toNat).bind fun v => .refl _
  | _ => exact .refl _

section step

variable {rule rule' : ℕ → Watched (Run σ) Value} {env : Env σ} {fuel : ℕ} {name : String} {code : Code}
  {r : Stretch} {ip : ℕ}

/-- One instruction asks for memory if it is a call, and leaves the rest to what follows it. -/
theorem step (h : ∀ i, Affords room (rule i) (rule' i))
    (ih : ∀ (q : Stretch) (jp : ℕ) (st : Stack), q.stop - jp < r.stop - ip →
      Affords room (Stretch.run room env fuel rule name code q jp st)
        (Stretch.run (fun _ _ => true) env fuel rule' name code q jp st)) (st : Stack) :
    Affords room (Stretch.run room env fuel rule name code r ip st)
      (Stretch.run (fun _ _ => true) env fuel rule' name code r ip st) := by
  by_cases hip : ip < r.stop
  · have hrest : ∀ next st, Affords room
        (Watched.advance r ip next (Stretch.run room env fuel rule name code r next st))
        (Watched.advance r ip next
          (Stretch.run (fun _ _ => true) env fuel rule' name code r next st)) := by
      intro next st
      exact .advance r fun hnext _ => ih r next st (by omega)
    have hbody : ∀ b c st, ip < b → c ≤ r.stop → Affords room
        (Watched.enter code r ⟨b, c⟩ (Stretch.run room env fuel rule name code ⟨b, c⟩ b st))
        (Watched.enter code r ⟨b, c⟩
          (Stretch.run (fun _ _ => true) env fuel rule' name code ⟨b, c⟩ b st)) := by
      intro b c st hb hc
      have hshort : c - b < r.stop - ip := by omega
      exact .enter (ih ⟨b, c⟩ b st hshort) code r ⟨b, c⟩
    rw [Stretch.run, Stretch.run, if_pos hip, if_pos hip]
    refine (refl _).bind fun _ => (refl _).bind fun w => ?_
    cases Opcode.ofWord? w with
    | none => exact .refl _
    | some op =>
      simp only
      cases op.form.layout with
      | plain count i =>
        exact (refl _).bind fun arg => (instr h env _ st).bind fun st => hrest _ st
      | condition leading t =>
        refine (refl _).bind fun arg => (refl _).bind fun yes => (refl _).bind fun no => ?_
        split
        · refine (refl _).bind fun s => (refl _).bind fun ⟨answer, st⟩ => ?_
          cases answer with
          | true => exact (hbody _ _ st (by omega) (by omega)).bind fun st => hrest _ st
          | false => exact (hbody _ _ st (by omega) (by omega)).bind fun st => hrest _ st
        · exact .refl _
      | loop =>
        refine (refl _).bind fun size => ?_
        split
        · have hpass := fun st => hbody (ip + 2) (ip + 2 + size.toNat) st (by omega) (by omega)
          have hloop := whileMatched hpass fuel st
          exact hloop.bind fun st => hrest _ st
        · exact .refl _
      | call =>
        refine (refl _).bind fun f => (refl _).bind fun pops => (refl _).bind fun n => ?_
        refine (reserve n.toNat).bind fun _ => (refl _).bind fun args => ?_
        exact (refl _).bind fun v => (refl _).bind fun st => hrest _ (v :: st)
  · rw [Stretch.run, Stretch.run, if_neg hip, if_neg hip]
    exact .refl _

end step

theorem run {rule rule' : ℕ → Watched (Run σ) Value} (h : ∀ i, Affords room (rule i) (rule' i))
    (env : Env σ) (fuel : ℕ) (name : String) (code : Code) (r : Stretch) (ip : ℕ) (st : Stack) :
    Affords room (Stretch.run room env fuel rule name code r ip st)
      (Stretch.run (fun _ _ => true) env fuel rule' name code r ip st) := by
  -- on what is left of the stretch: a body is a part of it, and so is the rest after an instruction
  induction hn : r.stop - ip using Nat.strong_induction_on generalizing r ip st with
  | h n ih =>
    subst hn
    exact step h (fun q jp st hlt => ih _ hlt q jp st rfl) st

theorem rule (env : Env σ) (rules : List RuleCode) (fuel depth i : ℕ) :
    Affords room (rule room env rules fuel depth i)
      (Watched.rule (fun _ _ => true) env rules fuel depth i) := by
  induction depth generalizing i with
  | zero =>
    rw [Watched.rule, Watched.rule]
    exact .refl _
  | succ depth ih =>
    rw [Watched.rule, Watched.rule]
    cases rules[i]? with
    | none => exact .refl _
    | some r => exact (run ih env fuel r.name r.code _ 0 []).bind fun st => .refl _

/-- A run of a rule is the run of the machine, unless memory is refused. -/
theorem machine (m : Machine σ) (i : ℕ) (input : String) :
    Affords room (machine room m i input) (ExceptT.lift (m.run i input)) := by
  rw [← machine_eq]
  exact (refl _).bind fun _ => bind (rule (m.env input) m.program.rules _ _ i) fun v => .refl _

end Affords
end Watched

namespace Block

/-- How the tree ends: with the end of the stretch, or with what breaks it off. -/
def last : Block → Block
  | .instr _ _ rest => rest.last
  | .branch _ _ _ _ _ _ rest => rest.last
  | .loop _ _ _ rest => rest.last
  | .call _ _ _ _ rest => rest.last
  | b => b

/-- A run that succeeds has come to the end of the stretch. -/
theorem last_of_run {env : Env σ} {fuel : ℕ} {rule : ℕ → Run σ Value} {name : String} {b : Block}
    {st st' : Stack} {s s' : State σ} (h : b.run env fuel rule name st s = .ok st' s') :
    b.last = .done := by
  induction b generalizing st s with
  | done => rfl
  | unknown ip w =>
    obtain ⟨_, _, -, h⟩ := bind_eq_ok.mp h
    cases h
  | truncated ip op slots =>
    obtain ⟨_, _, -, h⟩ := bind_eq_ok.mp h
    obtain ⟨_, _, -, h⟩ := bind_eq_ok.mp h
    cases h
  | branchOverrun ip t a b =>
    obtain ⟨_, _, -, h⟩ := bind_eq_ok.mp h
    cases h
  | loopOverrun ip a =>
    obtain ⟨_, _, -, h⟩ := bind_eq_ok.mp h
    cases h
  | instr ip i rest ih =>
    obtain ⟨_, _, -, h⟩ := bind_eq_ok.mp h
    obtain ⟨_, _, -, h⟩ := bind_eq_ok.mp h
    exact ih h
  | branch ip t a b yes no rest _ _ ih =>
    obtain ⟨_, _, -, h⟩ := bind_eq_ok.mp h
    obtain ⟨_, _, -, h⟩ := bind_eq_ok.mp h
    obtain ⟨⟨answer, _⟩, _, -, h⟩ := bind_eq_ok.mp h
    cases answer with
    | true =>
      obtain ⟨_, _, -, h⟩ := bind_eq_ok.mp h
      exact ih h
    | false =>
      obtain ⟨_, _, -, h⟩ := bind_eq_ok.mp h
      exact ih h
  | loop ip a body rest _ ih =>
    obtain ⟨_, _, -, h⟩ := bind_eq_ok.mp h
    obtain ⟨_, _, -, h⟩ := bind_eq_ok.mp h
    exact ih h
  | call ip f pops slots rest ih =>
    obtain ⟨_, _, -, h⟩ := bind_eq_ok.mp h
    obtain ⟨_, _, -, h⟩ := bind_eq_ok.mp h
    obtain ⟨_, _, -, h⟩ := bind_eq_ok.mp h
    obtain ⟨_, _, -, h⟩ := bind_eq_ok.mp h
    exact ih h

theorem run_eq_error {env : Env σ} {fuel : ℕ} {rule : ℕ → Run σ Value} {name : String} {b : Block}
    (hb : b.last ≠ .done) (st : Stack) (s : State σ) :
    ∃ e s', b.run env fuel rule name st s = .error e s' := by
  cases h : b.run env fuel rule name st s with
  | ok st' s' => exact (hb (last_of_run h)).elim
  | error e s' => exact ⟨e, s', rfl⟩

end Block

namespace Code

theorem heightIn_eq_error {ε : Type} (a : Arithmetic ε) {code : Code} (hc : ¬ code.Complete) (h : ℤ) :
    ∃ e, code.heightIn a h = .error e := by
  cases hz : code.heightIn a h with
  | ok z => exact (hc (.of_height hz)).elim
  | error e => exact ⟨e, rfl⟩

/-- A line of the listing says that code is incomplete. -/
theorem exists_marker {code : Code} (hc : ¬ code.Complete) (consts : List Constant) :
    ∃ l ∈ (Block.read 0 code).lines consts 0, l.visit? = none ∧ ¬ l.IsHeading := by
  by_contra! hno
  exact hc (.of_unbroken (unbroken_lines consts) ⟨0, hno⟩)

theorem not_complete_of_marker {code : Code} {l : Line} (hl : l ∈ (Block.read 0 code).lines [] 0)
    (hv : l.visit? = none) (hh : ¬ l.IsHeading) : ¬ code.Complete :=
  fun hc => hh (hc.isHeading [] 0 0 l hl hv)

/-- Walks over code never leave it, whatever its words. With a watch on every word that is read, every
body that is entered and every step that is taken, the check, the listing and the machine do just what
they do without one, so no place makes them crash; memory for arguments is all that a run may be refused.
Code that is not complete has no height, in whatever arithmetic and from whatever height, and its listing
says so in a line of its own; a run of a stretch that is broken off stops. -/
theorem walks_within (code : Code) :
    (∀ (ε : Type) (a : Arithmetic ε) (h : ℤ),
      Stretch.heightIn a code ⟨0, code.length⟩ 0 h = ExceptT.lift (code.heightIn a h) ∧
      (¬ code.Complete → ∃ e, code.heightIn a h = .error e)) ∧
    (∀ consts, ∃ ls, ls = (Block.read 0 code).lines consts 0 ∧
      Stretch.lines consts code ⟨0, code.length⟩ 0 0 = pure ls ∧
      code.listing consts = Line.renderAll ls ∧
      (¬ code.Complete → ∃ l ∈ ls, l.visit? = none ∧ ¬ l.IsHeading)) ∧
    ∀ (σ : Type) (room : ℕ → ℕ → Bool),
      (∀ (m : Machine σ) (i : ℕ) (input : String),
        Affords room (Watched.machine room m i input) (ExceptT.lift (m.run i input))) ∧
      ∀ (env : Env σ) (fuel : ℕ) (rule : ℕ → Run σ Value) (name : String) (st : Stack) (r : Stretch),
        r.Holds code r.start →
        let walk := Stretch.run room env fuel (fun i => ExceptT.lift (rule i)) name code r r.start st
        Affords room walk (ExceptT.lift ((r.block code).run env fuel rule name st)) ∧
          ((r.block code).last ≠ .done → ∀ s, (∃ e t, walk.run s = .error e t) ∨ Refused room walk s) := by
  have hall : Stretch.Holds code ⟨0, code.length⟩ 0 := ⟨le_rfl, Nat.zero_le _, le_rfl⟩
  have hblock : Stretch.block code ⟨0, code.length⟩ = Block.read 0 code := by
    rw [Stretch.block, Stretch.words_all]
  refine ⟨fun ε a h => ⟨?_, fun hc => heightIn_eq_error a hc h⟩,
    fun consts => ⟨_, rfl, ?_, rfl, fun hc => exists_marker hc consts⟩,
    fun σ room => ⟨.machine, fun env fuel rule name st r hr => ?_⟩⟩
  · rw [Stretch.checks a hall, hblock]
    rfl
  · rw [Stretch.lists hall, hblock]
  · intro walk
    have hwalk : Affords room walk (ExceptT.lift ((r.block code).run env fuel rule name st)) := by
      rw [← Stretch.runs hr]
      exact .run (fun i => .refl _) env fuel name code r r.start st
    refine ⟨hwalk, fun hlast s => (hwalk s).imp_left fun hsame => ?_⟩
    obtain ⟨e, t, he⟩ := Block.run_eq_error hlast st s
    refine ⟨e, t, hsame.trans ?_⟩
    change EStateM.map Except.ok ((r.block code).run env fuel rule name st) s = _
    rw [EStateM.map, he]

/-- A test whose bodies are to have more words than there are. -/
theorem walks_within_overrun :
    let code : Code := [1, 10, 9, 2]
    let r : Stretch := ⟨0, 4⟩
    ¬ code.Complete ∧ r.Holds code r.start ∧ (r.block code).last ≠ .done ∧
      (∃ e, code.heightIn .wrapping 0 = .error e) ∧
      (∃ l ∈ (Block.read 0 code).lines [] 0, l.visit? = none ∧ ¬ l.IsHeading) ∧
      ∀ (env : Env Unit) (s : State Unit), ∃ e t, (Stretch.run (fun _ _ => true) env 0
        (fun i => ExceptT.lift (fault (.ruleIndex i))) "a" code r 0 []).run s = .error e t := by
  intro code r
  obtain ⟨hheight, hlines, hruns⟩ := walks_within code
  have hmark : Line.mark 0 "<bodies overrun span>" ∈ (Block.read 0 code).lines [] 0 := by
    decide +kernel
  have hc : ¬ code.Complete := not_complete_of_marker hmark rfl (by simp [Line.IsHeading])
  have hr : r.Holds code r.start := ⟨by decide, by decide, by decide⟩
  have hlast : (r.block code).last ≠ .done := by decide +kernel
  obtain ⟨ls, rfl, -, -, hmarker⟩ := hlines []
  refine ⟨hc, hr, hlast, (hheight _ .wrapping 0).2 hc, hmarker hc, fun env s => ?_⟩
  obtain ⟨-, hrun⟩ := (hruns Unit fun _ _ => true).2 env 0 (fun i => fault (.ruleIndex i)) "a" [] r hr
  rcases hrun hlast s with he | ⟨n, t, hn, -⟩
  · exact he
  · cases hn

/-- Code that is not complete may still be left without an error value. A run passes over a body that it
does not run, whatever its words. In 32 bits a height may be out of range before the check comes to what
is wrong. Memory for the arguments of a call may be refused before its slots are missed. -/
theorem incomplete_unanswered :
    let unread : Code := [0, 0, 10, 1, 0, 99]
    let high : Code := [0, 0, 99]
    let wide : Code := [24, 0, 0, 0xFFFFFFFF]
    let m : Code → Machine Unit := fun c => ⟨⟨[⟨"r", c⟩], [.null]⟩, .none, {}, 0⟩
    (¬ unread.Complete ∧ ∃ t, (m unread).run 0 "" (.start ()) = .ok ⟨.null, 0, {}⟩ t) ∧
      (¬ high.Complete ∧ high.heightIn .trapping 0x7FFFFFFF = .error .overflow) ∧
      (¬ wide.Complete ∧ ∃ t, (Watched.machine (fun _ _ => false) (m wide) 0 "").run (.start ()) =
        .ok (.error (.memory 0xFFFFFFFF)) t) := by
  intro unread high wide m
  have hunread : Line.unknown 1 5 99 ∈ (Block.read 0 unread).lines [] 0 := by decide +kernel
  have hhigh : Line.unknown 0 2 99 ∈ (Block.read 0 high).lines [] 0 := by decide +kernel
  have hwide : Line.truncated 0 0 .call ∈ (Block.read 0 wide).lines [] 0 := by decide +kernel
  refine ⟨⟨not_complete_of_marker hunread rfl (by simp [Line.IsHeading]), ?_⟩,
    ⟨not_complete_of_marker hhigh rfl (by simp [Line.IsHeading]), by decide +kernel⟩,
    ⟨not_complete_of_marker hwide rfl (by simp [Line.IsHeading]), ?_⟩⟩
  · have hl : (m unread).program.load = [⟨"r", .instr 0 (.push 0)
        (.branch 2 .isFailed 1 0 (.unknown 5 99) .done .done)⟩] := by
      decide +kernel
    rw [Machine.run, hl]
    exact ⟨_, rfl⟩
  · rw [Watched.machine, Watched.rule]
    simp only [m, List.getElem?_cons_zero]
    rw [Stretch.run]
    exact ⟨_, rfl⟩

end Code

end PegMachine
