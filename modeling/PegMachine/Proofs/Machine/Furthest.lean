import PegMachine.Proofs.Machine.Observed

/-! The report on a run is about the furthest of its failures. A parse that fails says what the report
says, and that the input might have ended. -/
namespace PegMachine

variable {σ α β : Type}

/-- The report is about the furthest of the failures: the greatest of their places, or 0 if there are
none, and what was expected there, in their order. -/
structure Report.Furthest (r : Report) (fs : List Failure) : Prop where
  le {f : Failure} (h : f ∈ fs) : f.pos ≤ r.pos
  attained (h : r.pos ≠ 0) : ∃ f ∈ fs, f.pos = r.pos
  expected : r.expected = (fs.filter fun f => f.pos = r.pos).map Failure.expected

theorem Report.furthest_nil : Report.Furthest {} [] := by
  constructor
  case le =>
    intro f h
    cases h
  case attained =>
    intro h
    exact absurd rfl h
  case expected => rfl

/-- A failure at a smaller place is left out, one at the furthest place is added, and one beyond it
takes the place of all others. -/
theorem Report.Furthest.record {r : Report} {fs : List Failure} (h : r.Furthest fs) (f : Failure) :
    (r.record f.pos f.expected).Furthest (fs ++ [f]) := by
  unfold Report.record
  split
  · next hlt =>
    constructor
    case le =>
      intro f' hf
      rcases List.mem_append.mp hf with hf | hf
      · exact h.le hf
      · obtain rfl := List.mem_singleton.mp hf
        exact hlt.le
    case attained =>
      intro hr
      obtain ⟨f', hf, hp⟩ := h.attained hr
      exact ⟨f', List.mem_append_left _ hf, hp⟩
    case expected =>
      have hne : ¬f.pos = r.pos := by omega
      simp [List.filter_append, hne, h.expected]
  · next hge =>
    split
    · next hlt =>
      have hnone : fs.filter (fun f' => f'.pos = f.pos) = [] := by
        rw [List.filter_eq_nil_iff]
        intro f' hf
        have := h.le hf
        simp
        omega
      constructor
      case le =>
        intro f' hf
        rcases List.mem_append.mp hf with hf | hf
        · exact (h.le hf).trans hlt.le
        · obtain rfl := List.mem_singleton.mp hf
          exact le_rfl
      case attained =>
        intro _
        exact ⟨f, by simp, rfl⟩
      case expected =>
        simp [List.filter_append, hnone]
    · next hle =>
      have heq : f.pos = r.pos := by omega
      constructor
      case le =>
        intro f' hf
        rcases List.mem_append.mp hf with hf | hf
        · exact h.le hf
        · obtain rfl := List.mem_singleton.mp hf
          exact heq.le
      case attained =>
        intro _
        exact ⟨f, by simp, heq⟩
      case expected =>
        simp [List.filter_append, heq, h.expected]

open Run

/-- With its history left out `f` is `g`, and the report is about the furthest failures in the
history. -/
structure Observes (f : Observed σ α) (g : Run σ α) : Prop where
  same (fs : List Failure) : Prod.fst <$> f.run fs = g
  furthest {fs fs' : List Failure} {s t : State σ} {a : α} (h : f.run fs s = .ok (a, fs') t)
    (hs : s.report.Furthest (Failure.loud fs)) : t.report.Furthest (Failure.loud fs')

namespace Observes

theorem pure (a : α) : Observes (σ := σ) (pure a) (pure a) := by
  constructor
  case same =>
    intro fs
    rfl
  case furthest =>
    intro fs fs' s t b h hs
    obtain ⟨hx, rfl⟩ := pure_eq_ok.mp h
    obtain ⟨-, rfl⟩ := Prod.mk.inj hx
    exact hs

theorem bind {f : Observed σ α} {g : Run σ α} {f' : α → Observed σ β} {g' : α → Run σ β}
    (hf : Observes f g) (hk : ∀ a, Observes (f' a) (g' a)) : Observes (f >>= f') (g >>= g') := by
  constructor
  case same =>
    intro fs
    have hrest (x : α × List Failure) : Prod.fst <$> (f' x.1).run x.2 = g' x.1 := (hk x.1).same x.2
    rw [StateT.run_bind, map_bind, ← hf.same fs, bind_map_left]
    exact bind_congr hrest
  case furthest =>
    intro fs fs' s t b h hs
    obtain ⟨x, u, hx, h⟩ := bind_eq_ok.mp h
    exact (hk x.1).furthest h (hf.furthest hx hs)

/-- What records no failure. -/
theorem plain {g : Run σ α} (hg : ∀ s a t, g s = .ok a t → t.report = s.report) :
    Observes (.plain g) g := by
  constructor
  case same =>
    intro fs
    change Prod.fst <$> (g >>= fun a => Pure.pure (a, fs)) = g
    simp
  case furthest =>
    intro fs fs' s t a h hs
    obtain ⟨b, u, hb, h⟩ := bind_eq_ok.mp h
    obtain ⟨hx, rfl⟩ := pure_eq_ok.mp h
    obtain ⟨rfl, rfl⟩ := Prod.mk.inj hx
    rw [hg s b u hb]
    exact hs

theorem of_keeps {g : Run σ α} (hg : Keeps State.account g) : Observes (.plain g) g :=
  plain fun _ _ _ h => (Prod.mk.inj (hg.ok h)).1

theorem ofExcept {x : Except Fault α} : Observes (σ := σ) (.plain (ofExcept x)) (ofExcept x) := by
  refine plain fun s a t h => ?_
  obtain ⟨-, rfl⟩ := ofExcept_eq_ok.mp h
  rfl

theorem stop (x : Stop) : Observes (α := α) (σ := σ) (.plain (throw x)) (throw x) := by
  refine plain fun s a t h => ?_
  cases h

theorem get : Observes (σ := σ) (.plain get) get := of_keeps .get

theorem tick (limits : Limits) (S : Stack) :
    Observes (σ := σ) (.plain (tick limits S)) (tick limits S) := by
  refine plain fun s a t h => ?_
  rw [tick_eq_ok h]

end Observes

variable {env : Env σ} {rule : ℕ → Run σ Value} {orule : ℕ → Observed σ Value} {fuel : ℕ}
  {name : String} {S : Stack}

theorem Observes.fail (e : Expectation) : Observes (σ := σ) (.fail e)
    (modify fun s => { s with toProgress := s.toProgress.fail e }) := by
  constructor
  case same =>
    intro fs
    rfl
  case furthest =>
    intro fs fs' s t a h hs
    have hloud : Failure.loud (fs ++ [⟨s.pos, s.silence, e⟩]) =
        Failure.loud fs ++ if s.silence = 0 then [⟨s.pos, s.silence, e⟩] else [] := by
      by_cases hz : s.silence = 0 <;> simp [Failure.loud, List.filter_append, hz]
    cases h
    change (s.toProgress.fail e).report.Furthest _
    rw [hloud, Progress.fail]
    split
    · exact hs.record ⟨s.pos, s.silence, e⟩
    · rw [List.append_nil]
      exact hs

theorem Instr.observes (hr : ∀ i, Observes (orule i) (rule i)) (i : Instr) (S : Stack) :
    Observes (Observed.instr env orule i S) (i.run env rule S) := by
  cases i with
  | rule i => exact (hr i.toNat).bind fun v => .pure _
  | fail i => exact Observes.ofExcept.bind fun e => (Observes.fail e).bind fun _ => .pure _
  | _ => exact .of_keeps (keeps_account (by simp) (by simp))

theorem Observes.whileMatched {body : Stack → Run σ Stack} {obody : Stack → Observed σ Stack}
    (hb : ∀ S, Observes (obody S) (body S)) (fuel : ℕ) (S : Stack) :
    Observes (Observed.whileMatched obody fuel S) (Run.whileMatched body fuel S) := by
  induction fuel generalizing S with
  | zero =>
    rw [Observed.whileMatched, Run.whileMatched]
    refine ofExcept.bind fun v => ?_
    split
    · exact .pure S
    · exact .stop _
  | succ fuel ih =>
    rw [Observed.whileMatched, Run.whileMatched]
    refine ofExcept.bind fun v => ?_
    split
    · exact .pure S
    · exact (hb S).bind ih

theorem Block.observes (hr : ∀ i, Observes (orule i) (rule i)) (b : Block) (S : Stack) :
    Observes (Observed.block env fuel orule name b S) (b.run env fuel rule name S) := by
  induction b generalizing S with
  | done =>
    rw [Observed.block, run]
    exact .pure S
  | unknown | branchOverrun | loopOverrun =>
    rw [Observed.block, run]
    exact (Observes.tick _ _).bind fun _ => .stop _
  | truncated ip op slots =>
    rw [Observed.block, run]
    exact (Observes.tick _ _).bind fun _ => Observes.ofExcept.bind fun _ => .stop _
  | instr ip i rest ih =>
    rw [Observed.block, run]
    exact (Observes.tick _ _).bind fun _ => (i.observes hr S).bind ih
  | branch ip t m n yes no rest ihy ihn ih =>
    rw [Observed.block, run]
    refine (Observes.tick _ _).bind fun _ => Observes.get.bind fun s => ?_
    refine Observes.ofExcept.bind fun x => ?_
    obtain ⟨answer, T⟩ := x
    cases answer with
    | true => exact (ihy T).bind ih
    | false => exact (ihn T).bind ih
  | loop ip n body rest ihb ih =>
    rw [Observed.block, run]
    exact (Observes.tick _ _).bind fun _ => (Observes.whileMatched ihb fuel S).bind ih
  | call ip f pops slots rest ih =>
    rw [Observed.block, run]
    refine (Observes.tick _ _).bind fun _ => Observes.ofExcept.bind fun args => ?_
    refine (Observes.of_keeps keeps_callHost).bind fun v => ?_
    exact Observes.ofExcept.bind fun T => ih _

theorem Run.observes_rule (env : Env σ) (rules : List LoadedRule) (fuel depth i : ℕ) :
    Observes (Observed.rule env rules fuel depth i) (Run.rule env rules fuel depth i) := by
  induction depth generalizing i with
  | zero =>
    rw [Observed.rule, Run.rule]
    cases rules[i]? with
    | none => exact .stop _
    | some r => exact .stop _
  | succ depth ih =>
    rw [Observed.rule, Run.rule]
    cases rules[i]? with
    | none => exact .stop _
    | some r => exact (r.body.observes ih []).bind fun S => .ofExcept

theorem Report.record_pos (r : Report) (p : ℕ) (e : Expectation) :
    (r.record p e).pos = max r.pos p := by
  unfold record
  split
  · omega
  · split
    · change p = _
      omega
    · change r.pos = _
      omega

/-- The run has a value and has read the whole input. -/
def Outcome.Complete (o : Outcome) (input : Input) : Prop :=
  o.value.isFailed = false ∧ o.pos = input.size

/-- What a failure to parse says of a run that has ended so with this history. A run without a value is
reported as it is. One that has stopped short of the end of the input has failed to find it. -/
structure ParseFailure.Tells (f : ParseFailure) (o : Outcome) (input : Input) (fs : List Failure) :
    Prop where
  failed (h : o.value.isFailed = true) : f.offset = o.report.pos ∧ f.expected = o.report.expected
  short (h : o.value.isFailed = false) : f.offset = max o.report.pos o.pos ∧
    f.expected = ((Failure.loud fs).filter fun x => x.pos = f.offset).map Failure.expected ++
      if o.pos = f.offset then [.other "end of input"] else []
  found : f.found = input[f.offset]?

namespace Machine

variable {m : Machine σ} {i : ℕ} {start input : String} {s t : State σ} {o : Outcome} {v : Value}

/-- The history of a run explains its report. -/
theorem run_observed (h : m.run i input s = .ok o t) :
    ∃ fs, (m.observe i input).run [] s = .ok (o, fs) t ∧ o.report.Furthest (Failure.loud fs) ∧
      o.pos = t.pos ∧ o.report = t.report := by
  obtain ⟨_, u, hu, h⟩ := bind_eq_ok.mp h
  cases hu
  obtain ⟨v, u, hv, h⟩ := bind_eq_ok.mp h
  cases h
  have hobs := Run.observes_rule (m.env input) m.program.load m.fuel m.limits.callDepth i
  have hsame := congrFun (hobs.same []) (.start s.host)
  rw [map_eq_pure_bind, hv] at hsame
  obtain ⟨x, t, hx, hsame⟩ := bind_eq_ok.mp hsame
  obtain ⟨rfl, rfl⟩ := pure_eq_ok.mp hsame
  have hfurthest := hobs.furthest hx Report.furthest_nil
  refine ⟨x.2, ?_, hfurthest, rfl, rfl⟩
  exact bind_eq_ok.mpr ⟨x, t, hx, rfl⟩

/-- The report of a parse on a run that has ended so. -/
def conclusion (o : Outcome) : Report :=
  if o.value.isFailed then o.report else o.report.record o.pos (.other "end of input")

theorem parse_eq (hi : m.program.ruleIndex? start = some i) (ho : m.run i input s = .ok o t)
    (hp : o.pos = t.pos) (hr : o.report = t.report) :
    m.parse start input s =
      if o.value.isFailed = false ∧ o.pos = (Input.ofString input).size then .ok o.value t
      else .error (.fault (.noParse ⟨(conclusion o).pos, (conclusion o).expected,
        (Input.ofString input)[(conclusion o).pos]?⟩)) { t with report := conclusion o } := by
  rw [parse, hi]
  change EStateM.bind _ _ _ = _
  rw [EStateM.bind, ho]
  have henv : (m.env input).input = Input.ofString input := rfl
  cases hv : o.value.isFailed with
  | true =>
    rw [if_neg (by simp), conclusion, hv, if_pos rfl, hr]
    simp only [hv, henv, Bool.not_true, Bool.false_and, Bool.false_eq_true, if_false]
    rfl
  | false =>
    by_cases hend : o.pos = (Input.ofString input).size
    · simp only [hv, henv, hend, Bool.not_false, Bool.true_and, beq_self_eq_true, and_self, if_true]
      rfl
    · rw [if_neg (by simp [hend]), conclusion, hv, if_neg Bool.false_ne_true, hr, hp]
      rw [hp] at hend
      simp only [hv, henv, hp, Bool.not_false, Bool.true_and, beq_eq_false_iff_ne.mpr hend,
        Bool.false_eq_true, if_false, if_true]
      rfl

theorem parse_eq_ok (hi : m.program.ruleIndex? start = some i) :
    m.parse start input s = .ok v t ↔
      ∃ o, m.run i input s = .ok o t ∧ o.value = v ∧ o.Complete (.ofString input) := by
  constructor
  · intro h
    have hbind := h
    rw [parse, hi] at hbind
    obtain ⟨o, u, ho, -⟩ := bind_eq_ok.mp hbind
    obtain ⟨-, -, -, hp, hr⟩ := run_observed ho
    rw [parse_eq hi ho hp hr] at h
    split at h
    · next hend =>
      cases h
      exact ⟨o, ho, rfl, hend⟩
    · cases h
  · rintro ⟨o, ho, rfl, hend⟩
    obtain ⟨-, -, -, hp, hr⟩ := run_observed ho
    rw [parse_eq hi ho hp hr]
    exact if_pos hend

/-- What a parse reports that has not read the whole input. -/
theorem parse_eq_error (hi : m.program.ruleIndex? start = some i) {fs : List Failure}
    (ho : m.run i input s = .ok o t) (hp : o.pos = t.pos) (hr : o.report = t.report)
    (hfs : o.report.Furthest (Failure.loud fs)) (hend : ¬o.Complete (.ofString input)) :
    ∃ f u, m.parse start input s = .error (.fault (.noParse f)) u ∧ f.Tells o (.ofString input) fs := by
  refine ⟨_, _, (parse_eq hi ho hp hr).trans (if_neg hend), ?_, ?_, rfl⟩
  · intro hv
    rw [conclusion, if_pos hv]
    exact ⟨rfl, rfl⟩
  · intro hv
    -- the end of the input is one more failure, and the last one
    have hlast : (o.report.record o.pos (.other "end of input")).Furthest _ :=
      hfs.record ⟨o.pos, 0, .other "end of input"⟩
    rw [conclusion, if_neg (by simp [hv])]
    refine ⟨Report.record_pos _ _ _, ?_⟩
    rw [hlast.expected, List.filter_append, List.map_append]
    generalize (o.report.record o.pos (.other "end of input")).pos = q
    by_cases h : o.pos = q <;> simp [h]

/-- The report of a run is about its furthest failures that were not silenced. A parse succeeds if the
run has a value and reads the whole input, and fails with what the report says otherwise. -/
theorem parse_furthest (m : Machine σ) (i : ℕ) (input : String) (s : State σ) :
    (∀ o t, m.run i input s = .ok o t →
      ∃ fs, (m.observe i input).run [] s = .ok (o, fs) t ∧ o.report.Furthest (Failure.loud fs) ∧
        ∀ start, m.program.ruleIndex? start = some i → ¬o.Complete (.ofString input) →
          ∃ f u, m.parse start input s = .error (.fault (.noParse f)) u ∧
            f.Tells o (.ofString input) fs) ∧
    ∀ start v t, m.program.ruleIndex? start = some i →
      (m.parse start input s = .ok v t ↔
        ∃ o, m.run i input s = .ok o t ∧ o.value = v ∧ o.Complete (.ofString input)) := by
  constructor
  · intro o t ho
    obtain ⟨fs, hobs, hfs, hp, hr⟩ := run_observed ho
    exact ⟨fs, hobs, hfs, fun start hi hend => parse_eq_error hi ho hp hr hfs hend⟩
  · intro start v t hi
    exact parse_eq_ok hi

/-- Of four failures one is met before the others, and one is silenced. -/
theorem parse_furthest_letters :
    let code : Code := [21, 0, 2, 19, 1, 2, 21, 0, 2, 26, 21, 1, 2, 27, 21, 1]
    let m : Machine Unit := ⟨⟨[⟨"letters", code⟩], [.expectation (.other "x"), .expectation (.other "y")]⟩,
      .none, {}, 0⟩
    let o : Outcome := ⟨.failed, 1, ⟨1, [.other "x", .other "y"]⟩⟩
    ∃ t f u, m.run 0 "ab" (.start ()) = .ok o t ∧ m.program.ruleIndex? "letters" = some 0 ∧
      ¬o.Complete (.ofString "ab") ∧
      m.parse "letters" "ab" (.start ()) = .error (.fault (.noParse f)) u ∧ f.offset = 1 ∧
      f.expected = [.other "x", .other "y"] ∧ f.found = some 'b' := by
  intro code m o
  have hl : m.program.load = [⟨"letters", .instr 0 (.fail 0) (.instr 2 .pop (.instr 3 (.acceptN 1)
      (.instr 5 .pop (.instr 6 (.fail 0) (.instr 8 .pop (.instr 9 .silenceOn (.instr 10 (.fail 1)
        (.instr 12 .pop (.instr 13 .silenceOff (.instr 14 (.fail 1) .done))))))))))⟩] := by
    decide +kernel
  have hi : m.program.ruleIndex? "letters" = some 0 := rfl
  have hr : ∃ t, m.run 0 "ab" (.start ()) = .ok o t := by
    rw [Machine.run, hl]
    exact ⟨_, rfl⟩
  obtain ⟨t, hr⟩ := hr
  have hend : ¬o.Complete (.ofString "ab") := by
    rintro ⟨h, -⟩
    cases h
  obtain ⟨fs, -, -, hparse⟩ := (parse_furthest m 0 "ab" (.start ())).1 o t hr
  obtain ⟨f, u, hf, htells⟩ := hparse "letters" hi hend
  obtain ⟨hoffset, hexpected⟩ := htells.failed rfl
  have hfound := htells.found
  rw [hoffset] at hfound
  exact ⟨t, f, u, hr, hi, hend, hf, hoffset, hexpected, hfound⟩

end Machine
end PegMachine
