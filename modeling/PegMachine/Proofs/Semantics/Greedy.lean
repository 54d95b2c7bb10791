import PegMachine.Proofs.Semantics.Backtrack
import PegMachine.Proofs.Semantics.Local

/-! What a repetition has matched: its operand, once after the other, with the delimiter between two
matches, for as long as one more match can be had. -/
namespace PegMachine

variable {σ : Type}

/-- Code of `e` that is run from place `p` leaves `v` and ends at place `q`. Some run has done so, and
every run does, whatever its state and its stack, unless it meets a limit. -/
structure Activation.Takes (A : Activation σ) (rules : String → Option ℕ) (e : Expr) (p : ℕ)
    (v : Value) (q : ℕ) : Prop where
  done : ∃ ctx c ip S t u, Context.action ctx = none ∧
    e.Shape A.env.program.consts rules ctx [] c ∧ t.pos = p ∧ A.exec ip c S t = .ok (v :: S) u ∧
    u.pos = q
  always {ctx : Context} {c : Code} (ha : ctx.action = none)
    (hc : e.Shape A.env.program.consts rules ctx [] c) {t : State σ} (ht : t.pos = p) (ip : ℕ)
    (S : Stack) : EndsAt (v :: S) q (A.exec ip c S t)

section

variable (A : Activation σ) (rules : String → Option ℕ) (r : Repetition)

/-- After the matches `vs`, the last of which ends at place `q`, the operand is run from place `s`:
behind a delimiter, if there is one. -/
inductive Activation.Starts : List Value → ℕ → ℕ → Prop
  | first {q : ℕ} : Starts [] q q
  | direct {vs : List Value} {q : ℕ} (hd : r.delimiter = none) : Starts vs q q
  | delimited {vs : List Value} {q s : ℕ} {d : Expr} {w : Value} (hvs : vs ≠ [])
      (hd : r.delimiter = some d) (hw : w.isFailed = false) (h : A.Takes rules d q w s) :
      Starts vs q s

/-- The operand has matched from place `p` on, once after the other: these are the values, and the
place where the last match ends. -/
inductive Activation.Chain (p : ℕ) : List Value → ℕ → Prop
  | nil : Chain p [] p
  | more {vs : List Value} {v : Value} {q s q' : ℕ} (h : Chain p vs q)
      (hs : A.Starts rules r vs q s) (hv : v.isFailed = false)
      (he : A.Takes rules r.operand s v q') : Chain p (vs ++ [v]) q'

/-- After the matches `vs` there is no other one at place `q`. -/
inductive Activation.Stuck (vs : List Value) (q : ℕ) : Prop
  | operand {s q' : ℕ} (hs : A.Starts rules r vs q s) (he : A.Takes rules r.operand s .failed q')
  | delimiter {d : Expr} {q' : ℕ} (hvs : vs ≠ []) (hd : r.delimiter = some d)
      (h : A.Takes rules d q .failed q')

/-- The attempt after the matches `vs` has yielded `v` and ended at place `q`. -/
inductive Activation.Tried (p : ℕ) (vs : List Value) : Value → ℕ → Prop
  | matched {v : Value} {q : ℕ} (hv : v.isFailed = false) (h : A.Chain rules r p (vs ++ [v]) q) :
      Tried p vs v q
  | failed {q : ℕ} (h : A.Chain rules r p vs q)
      (hn : r.isFull vs = false → A.Stuck rules r vs q) : Tried p vs .failed q

end

namespace Walk

open Classical in
/-- The walk as far as it goes the way of `P`. Elsewhere it runs out of passes. -/
noncomputable def only (P : ℕ → Value → ℕ → Prop) (w : Walk σ Value) : Walk σ Value := do
  let p ← place
  let v ← w
  let q ← place
  if P p v q then pure v else throw .fuel

/-- A later attempt, made of walks of the operand and of the delimiter. -/
def next (w : Walk σ Value) : Option (Walk σ Value) → Walk σ Value
  | none => w
  | some d => do
    let p ← place
    let v ← d
    if v.isFailed then pure v
    else do
      let v ← w
      if v.isFailed then do
        seek p
        pure .failed
      else pure v

variable {P : ℕ → Value → ℕ → Prop} {w : Walk σ Value} {s t : Progress σ} {v : Value}

theorem only_eq_ok (h : only P w s = .ok v t) : w s = .ok v t ∧ P s.pos v t.pos := by
  obtain ⟨p, s', hp, h⟩ := estate_bind_eq_ok.mp h
  cases hp
  obtain ⟨v', u, hv, h⟩ := estate_bind_eq_ok.mp h
  obtain ⟨q, u', hq, h⟩ := estate_bind_eq_ok.mp h
  cases hq
  by_cases hP : P s.pos v' u.pos
  · rw [if_pos hP] at h
    obtain ⟨rfl, rfl⟩ := estate_pure_eq_ok.mp h
    exact ⟨hv, hP⟩
  · rw [if_neg hP] at h
    cases h

end Walk

open Walk

/-- A walk that code of `e` emulates, that returns nothing but what such code takes, and that goes
back where it fails. -/
structure Activation.Mirrors (A : Activation σ) (rules : String → Option ℕ) (e : Expr)
    (w : Walk σ Value) : Prop where
  computes {ctx : Context} {c : Code} (ha : ctx.action = none)
    (hc : e.Shape A.env.program.consts rules ctx [] c) (S : Stack) : Computes A c S w
  takes {s t : Progress σ} {v : Value} (h : w s = .ok v t) : A.Takes rules e s.pos v t.pos
  restores : Restores w

variable {A : Activation σ} {rules : String → Option ℕ} {e : Expr} {r : Repetition}
  {wrule : String → Walk σ Value} {c : Code} {S S' : Stack} {w : Walk σ Value} {p q ip : ℕ}
  {t u : State σ} {v : Value}

open Classical in
/-- Code that goes the way of `P` emulates a walk as far as that goes the way of `P`. -/
theorem Computes.only {P : ℕ → Value → ℕ → Prop} (hc : Computes A c S w)
    (hP : ∀ ip t v u, A.exec ip c S t = .ok (v :: S) u → P t.pos v u.pos) :
    Computes A c S (only P w) := by
  intro ip t
  have hm := hc ip t
  have hr := hP ip t
  change Matches _ _ _ (EStateM.bind w (fun v u =>
    (if P t.pos v u.pos then pure v else throw .fuel : Walk σ Value) u) t.toProgress)
  unfold EStateM.bind
  generalize A.exec ip c S t = x at hm hr ⊢
  generalize w t.toProgress = y at hm ⊢
  cases hm with
  | @ok S' v u hS =>
    subst hS
    dsimp only
    rw [if_pos (hr v u rfl)]
    exact .ok rfl
  | limit hx => exact .limit hx
  | fuel => exact .fuel
  | host hf => exact .host hf

/-- Where the walk is local, one run leads where all others do. -/
theorem Expr.Sound.takes (hsound : e.Sound A rules wrule)
    (hlocal : Local (e.walk A.walkEnv A.fuel wrule [])) {ctx : Context} (ha : ctx.action = none)
    (hc : e.Shape A.env.program.consts rules ctx [] c) (hx : A.exec ip c S t = .ok (v :: S) u) :
    A.Takes rules e t.pos v u.pos := by
  constructor
  · exact ⟨ctx, c, ip, S, t, u, ha, hc, rfl, hx, rfl⟩
  · intro ctx' c' ha' hc' t' ht' ip' S'
    have hwalk := (hsound ctx [] c S [] ha hc .nil).walk_eq hx
    obtain ⟨x, hx', hpos⟩ := hlocal t.toProgress t'.toProgress v u.toProgress ht' hwalk
    rw [← hpos]
    exact (hsound ctx' [] c' S' [] ha' hc' .nil).endsAt hx'

theorem Expr.Sound.mirrors (hsound : e.Sound A rules wrule)
    (hlocal : Local (e.walk A.walkEnv A.fuel wrule []))
    (hback : Restores (e.walk A.walkEnv A.fuel wrule [])) :
    A.Mirrors rules e (only (A.Takes rules e) (e.walk A.walkEnv A.fuel wrule [])) := by
  constructor
  · intro ctx c ha hc S
    refine (hsound ctx [] c S [] ha hc .nil).only fun ip t v u hx => ?_
    exact hsound.takes hlocal ha hc hx
  · intro s t v h
    exact (only_eq_ok h).2
  · intro s t h
    exact hback s t (only_eq_ok h).1

section

variable {wd : Expr → Walk σ Value} {vs : List Value} {x y : Progress σ}
  (hw : A.Mirrors rules r.operand w) (hd : ∀ d ∈ r.delimiter, A.Mirrors rules d (wd d))

include hw

theorem Activation.Mirrors.tried_first (h : w x = .ok v y) : A.Tried rules r x.pos [] v y.pos := by
  rcases v.eq_failed_or with rfl | hv
  · rw [hw.restores x y h]
    exact .failed .nil fun _ => .operand .first (hw.takes h)
  · exact .matched hv (.more .nil .first hv (hw.takes h))

include hd

/-- The code of a repetition emulates its rounds, made of whatever walks mirror its parts. -/
theorem Expr.Shape.computes_rounds (hK : A.env.program.consts.length ≤ UInt32.size)
    (hr : e.repetition? = some r) {ctx : Context} {s : Scope}
    (hc : e.Shape A.env.program.consts rules ctx s c) :
    Computes A c S (r.rounds A.fuel w (next w (r.delimiter.map wd))) := by
  cases hc with
  | zeroOrMore hy he hm =>
    obtain rfl := Option.some.inj hr
    exact .zeroOrMore he.whole (hw.computes rfl he) (hy.has hK) hm
  | oneOrMore hy hf he hm hb =>
    obtain rfl := Option.some.inj hr
    rw [Repetition.rounds_oneOrMore]
    exact .oneOrMore he.whole (hw.computes rfl he) (hy.has hK) (hf.has hK) hm hb
  | bounded hy hf hl hg he hn hm hb ho =>
    obtain rfl := Option.some.inj hr
    have hinner := hw.computes rfl he
    rw [Repetition.rounds_bounded]
    refine .bounded he.whole hinner (fun S => ?_) (hy.has hK) (hf.has hK) (hl.has hK) (hg.has hK)
      hm hb ho
    cases hn with
    | none => exact hinner S
    | some hd' hb' hn' =>
      have hdelimiter := (hd _ rfl).computes rfl hd'
      exact .delimited he.whole hinner hd'.whole hdelimiter (hf.has hK) hb' hn'
  | _ => cases hr

theorem Activation.Chain.tried (hc : A.Chain rules r p vs x.pos) (hvs : vs ≠ [])
    (h : next w (r.delimiter.map wd) x = .ok v y) : A.Tried rules r p vs v y.pos := by
  cases hdel : r.delimiter with
  | none =>
    rw [hdel] at h
    have hs : A.Starts rules r vs x.pos x.pos := .direct hdel
    rcases v.eq_failed_or with rfl | hv
    · rw [hw.restores x y h]
      exact .failed hc fun _ => .operand hs (hw.takes h)
    · exact .matched hv (.more hc hs hv (hw.takes h))
  | some d =>
    rw [hdel] at h
    have hd := hd d hdel
    obtain ⟨p', x', hp, h⟩ := estate_bind_eq_ok.mp h
    cases hp
    obtain ⟨a, z, ha, h⟩ := estate_bind_eq_ok.mp h
    rcases a.eq_failed_or with rfl | haf
    · obtain ⟨rfl, rfl⟩ := estate_pure_eq_ok.mp h
      rw [hd.restores x z ha]
      exact .failed hc fun _ => .delimiter hvs hdel (hd.takes ha)
    · rw [haf] at h
      have hs : A.Starts rules r vs x.pos z.pos := .delimited hvs hdel haf (hd.takes ha)
      obtain ⟨b, z', hb, h⟩ := estate_bind_eq_ok.mp h
      rcases b.eq_failed_or with rfl | hbf
      · -- the delimiter is given back
        obtain ⟨_, z'', hseek, h⟩ := estate_bind_eq_ok.mp h
        cases hseek
        obtain ⟨rfl, rfl⟩ := estate_pure_eq_ok.mp h
        exact .failed hc fun _ => .operand hs (hw.takes hb)
      · rw [hbf] at h
        obtain ⟨rfl, rfl⟩ := estate_pure_eq_ok.mp h
        exact .matched hbf (.more hc hs hbf (hw.takes hb))

theorem Repetition.exists_tried {fuel : ℕ}
    (h : r.rounds fuel w (next w (r.delimiter.map wd)) x = .ok v y) :
    ∃ vs, A.Tried rules r x.pos vs .failed y.pos ∧ v = r.result vs := by
  obtain ⟨a, z, ha, h⟩ := estate_bind_eq_ok.mp h
  obtain ⟨vs, z', hvs, h⟩ := estate_bind_eq_ok.mp h
  obtain ⟨rfl, rfl⟩ := estate_pure_eq_ok.mp h
  refine ⟨vs, gather_ok (I := A.Tried rules r x.pos) hvs (hw.tried_first ha) ?_, rfl⟩
  intro vs v s w' t hv htried hagain
  cases htried with
  | failed => cases hv
  | matched _ hchain =>
    by_cases hf : r.isFull (vs ++ [v]) = true
    · rw [if_pos hf] at hagain
      obtain ⟨rfl, rfl⟩ := estate_pure_eq_ok.mp hagain
      refine .failed hchain fun hn => ?_
      rw [hf] at hn
      cases hn
    · rw [if_neg hf] at hagain
      exact hchain.tried hw hd (by simp) hagain

end

namespace Grammar

variable {g : Grammar} {m : Machine σ} {verify : Bool} {ctx : Context} {s : Scope}

/-- Wherever a repetition is run, it has matched its operand once after the other, with the delimiter
between two matches, and ends where the last match does. It leaves the values of the matches, or the
mark of failure if they are too few, and one more match could not be had, unless there were as many as
may be. The host answers calls with the same arguments in the same way, and never with the mark of
failure. No bounded repetition that asks for two matches or more can be reached from the operand or the
delimiter through no sequence. -/
theorem generate_greedy (hg : g.generate verify = .ok m.program) (hH : m.host.NeverFails)
    (hP : m.host.Pure) (hr : e.repetition? = some r) (he : g.Steady r.operand)
    (hd : ∀ d ∈ r.delimiter, g.Steady d)
    (hc : e.HasCode m.program.consts g.ruleIndex? ctx s c) (input : String) (depth : ℕ)
    (name : String) (hx : (m.activation input depth name).exec ip c S t = .ok S' u) :
    ∃ vs, (m.activation input depth name).Chain g.ruleIndex? r t.pos vs u.pos ∧
      (r.isFull vs = false → (m.activation input depth name).Stuck g.ruleIndex? r vs u.pos) ∧
      (r.least ≤ vs.length ∧ S' = .array vs :: S ∨ vs.length < r.least ∧ S' = .failed :: S) := by
  have hmakes := generate_makes hg
  let A := m.activation input depth name
  let wrule := g.ruleWalk ⟨m.host, .ofString input⟩ m.fuel depth
  let mirror : Expr → Walk σ Value := fun d =>
    only (A.Takes g.ruleIndex? d) (d.walk A.walkEnv A.fuel wrule [])
  have hrules : ∀ name, Local (wrule name) :=
    local_ruleWalk fun i => local_walk (g := g) hP m.fuel depth i
  have hmirror : ∀ d, g.Steady d → A.Mirrors g.ruleIndex? d (mirror d) := by
    intro d hd
    have hlocal : Local (d.walk A.walkEnv A.fuel wrule []) := d.local_walk hP hrules []
    exact (hmakes.expr_sound input depth name d).mirrors hlocal (restores_expr hH m.fuel depth hd [])
  have hcode : Computes A c S _ := hc.shape.computes_rounds (hmirror _ he)
    (fun d hd' => hmirror d (hd d hd')) hmakes.consts hr
  obtain ⟨v, rfl, hwalk⟩ := hcode.exists_walk_eq hx
  obtain ⟨vs, htried, rfl⟩ := Repetition.exists_tried (hmirror _ he)
    (fun d hd' => hmirror d (hd d hd')) hwalk
  refine ⟨vs, ?_⟩
  cases htried with
  | matched hv => cases hv
  | failed hchain hn =>
    refine ⟨hchain, hn, ?_⟩
    unfold Repetition.result
    by_cases hl : vs.length < r.least
    · exact .inr ⟨hl, by rw [if_pos hl]⟩
    · exact .inl ⟨not_lt.mp hl, by rw [if_neg hl]⟩

/-- Letters with a comma between two of them. The comma behind the last one is left. -/
theorem generate_greedy_letters :
    let r : Repetition := ⟨.any, 1, none, some (.literal "," false)⟩
    let e : Expr := .bounded .any (some 1) none (some (.literal "," false))
    let g : Grammar := ⟨[⟨"letters", e⟩]⟩
    let vs : List Value := [.string "a", .string "b"]
    ∃ (m : Machine Unit) (c : Code) (u : State Unit), g.generate true = .ok m.program ∧
      m.host.NeverFails ∧ m.host.Pure ∧ e.repetition? = some r ∧ g.Steady r.operand ∧
      (∀ d ∈ r.delimiter, g.Steady d) ∧ e.HasCode m.program.consts g.ruleIndex? .rule [] c ∧
      (m.activation "a,b," 0 "letters").exec 0 c [] (.start ()) = .ok [.array vs] u ∧
      (m.activation "a,b," 0 "letters").Chain g.ruleIndex? r 0 vs 3 ∧
      (m.activation "a,b," 0 "letters").Stuck g.ruleIndex? r vs 3 := by
  intro r e g vs
  let c : Code := [0, 0, 15, 2, 2, 19, 1, 21, 2, 14, 37, 6, 0, 6, 13, 2, 29, 0, 1, 1, 16, 3, 2, 2, 20,
    3, 21, 4, 11, 16, 1, 2, 15, 2, 2, 19, 1, 21, 2, 10, 4, 1, 2, 3, 0, 1, 5, 5, 2, 0, 5, 12, 3, 0, 2,
    0, 1]
  let consts : List Constant := [.emptyArray, .failed, .expectation .anyChar, .string ",",
    .expectation (.ofLiteral ","), .bound (some 1), .bound none]
  let m : Machine Unit := ⟨⟨[⟨"letters", c⟩], consts⟩, fun _ _ _ h => (.ok .null, h), {}, 2⟩
  have hg : g.generate true = .ok m.program := by decide +kernel
  have hH : m.host.NeverFails := by
    rintro f x args h ⟨⟩
  have hP : m.host.Pure := fun f x args h h' => rfl
  have hany : g.Steady .any := by
    rintro d n max delimiter (_ | ⟨-, hd, -⟩)
    cases hd
  have hcomma : ∀ d ∈ r.delimiter, g.Steady d := by
    rintro d hd d' n max delimiter h
    obtain rfl := Option.some.inj hd
    rcases h with _ | ⟨-, hd, -⟩
    cases hd
  have hc : e.HasCode consts g.ruleIndex? .rule [] c := ⟨{}, ⟨consts⟩, rfl, List.prefix_rfl⟩
  have hb : Block.read 0 c = .instr 0 (.push 0) (.branch 2 .any 2 2 (.instr 5 (.acceptN 1) .done)
      (.instr 7 (.fail 2) .done) (.loop 9 37 (.instr 11 .append (.instr 12 (.push 6)
        (.branch 14 .isFull 2 29 (.instr 17 (.push 1) .done) (.instr 19 .pushPos
          (.branch 20 (.string 3) 2 2 (.instr 24 (.acceptString 3) .done) (.instr 26 (.fail 4) .done)
            (.branch 28 .isMatched 16 1 (.instr 31 .pop
              (.branch 32 .any 2 2 (.instr 35 (.acceptN 1) .done) (.instr 37 (.fail 2) .done)
                (.branch 39 .isFailed 4 1 (.instr 42 .pop (.instr 43 .popPos
                  (.instr 44 (.push 1) .done))) (.instr 46 .nip .done) .done)))
              (.instr 47 .nip .done) .done))) .done)))
        (.instr 48 .pop (.instr 49 (.push 5) (.branch 51 .isShort 3 0
          (.instr 54 .pop (.instr 55 (.push 1) .done)) .done .done))))) := by
    decide +kernel
  have hx : ∃ u, (m.activation "a,b," 0 "letters").exec 0 c [] (.start ()) = .ok [.array vs] u ∧
      u.pos = 3 := by
    rw [Activation.exec, hb]
    exact ⟨_, rfl, rfl⟩
  obtain ⟨u, hx, hpos⟩ := hx
  obtain ⟨ws, hchain, hstuck, hend⟩ :=
    generate_greedy hg hH hP rfl hany hcomma hc "a,b," 0 "letters" hx
  rw [hpos] at hchain hstuck
  rcases hend with ⟨-, hend⟩ | ⟨-, hend⟩
  · obtain rfl : vs = ws := Value.array.inj (List.cons.inj hend).1
    exact ⟨m, c, u, hg, hH, hP, rfl, hany, hcomma, hc, hx, hchain, hstuck rfl⟩
  · cases hend

end Grammar
end PegMachine
