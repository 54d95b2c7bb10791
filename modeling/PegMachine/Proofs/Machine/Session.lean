import PegMachine.Proofs.Machine.Hosts
import PegMachine.Proofs.Semantics.Agreement

/-! One interpreter that answers many requests. A run leaves it with an input, a state and a count of the
rules that are inside one another, whatever these are; the next run starts anew with the state of the
host alone. -/
namespace PegMachine

variable {σ τ α : Type}

/-- A state of the host, beside the number of rules inside one another. -/
structure Counted (σ : Type) where
  host : σ
  depth : ℕ

/-- The host where rules are counted. -/
def Host.counted (H : Host σ) : Host (Counted σ) := fun f context args s =>
  let (answer, h) := H f context args s.host
  (answer, { s with host := h })

namespace State

def enter (s : State (Counted σ)) : State (Counted σ) :=
  { s with host := { s.host with depth := s.host.depth + 1 } }

def leave (s : State (Counted σ)) : State (Counted σ) :=
  { s with host := { s.host with depth := s.host.depth - 1 } }

end State

namespace Run

/-- Runs a rule and counts it in and out, whether it ends with a value or not. One that is over the
limit is not counted out. At most `gas` rules may be let in. -/
def countedRule (env : Env (Counted σ)) (rules : List LoadedRule) (fuel : ℕ) :
    (gas : ℕ) → ℕ → Run (Counted σ) Value
  | gas, i =>
    match rules[i]? with
    | none => fault (.ruleIndex i)
    | some r => do
      modify State.enter
      let s ← get
      if env.limits.callDepth < s.host.depth then fault (.callDepth env.limits.callDepth r.name)
      else match gas with
        | 0 => throw .fuel
        | gas + 1 => do
          let st ← tryFinally (r.body.run env fuel (countedRule env rules fuel gas) r.name [])
            (modify State.leave)
          ofExcept st.top

end Run

/-- An interpreter: its input, and the state in which it is. -/
structure Interpreter (σ : Type) where
  input : Input
  state : State (Counted σ)

namespace Interpreter

/-- An interpreter that has run nothing yet. -/
def fresh (h : σ) : Interpreter σ := ⟨.ofString "", .start ⟨h, 0⟩⟩

def host (t : Interpreter σ) : σ := t.state.host.host

/-- Starts anew with an input; only the state of the host stays. -/
def reset (input : String) (t : Interpreter σ) : Interpreter σ := ⟨.ofString input, .start ⟨t.host, 0⟩⟩

/-- Runs a part of a run in the state of the interpreter. -/
def lift (f : Input → Run (Counted σ) α) : EStateM Stop (Interpreter σ) α := fun t =>
  match f t.input t.state with
  | .ok a s => .ok a { t with state := s }
  | .error x s => .error x { t with state := s }

end Interpreter

namespace Machine

/-- Runs a rule on the interpreter as it is. -/
def exec (m : Machine σ) (i : ℕ) : EStateM Stop (Interpreter σ) Value :=
  Interpreter.lift fun input => Run.countedRule ⟨m.program, m.host.counted, m.limits, input⟩
    m.program.load m.fuel m.limits.callDepth i

def serveRun (m : Machine σ) (i : ℕ) (input : String) : EStateM Stop (Interpreter σ) Outcome := do
  modify (Interpreter.reset input)
  let v ← m.exec i
  let t ← get
  pure ⟨v, t.state.pos, t.state.report⟩

def serveParse (m : Machine σ) (start input : String) : EStateM Stop (Interpreter σ) Value := do
  match m.program.ruleIndex? start with
  | none => throw (.fault (.unknownRule start))
  | some i => do
    let o ← m.serveRun i input
    let t ← get
    if !o.value.isFailed && o.pos == t.input.size then pure o.value
    else do
      if !o.value.isFailed then
        Interpreter.lift fun _ =>
          modify fun s => { s with toProgress := s.toProgress.expect (.other "end of input") }
      let t ← get
      let r := t.state.report
      throw (.fault (.noParse ⟨r.pos, r.expected, t.input[r.pos]?⟩))

end Machine

/-- What is asked of an interpreter. -/
inductive Request where
  /-- To run a rule from the start of an input. -/
  | run (i : ℕ) (input : String)
  /-- To parse all of an input. -/
  | parse (start input : String)

namespace Request

/-- The interpreter answers a request. -/
def serve (m : Machine σ) : Request → EStateM Stop (Interpreter σ) (Outcome ⊕ Value)
  | .run i input => Sum.inl <$> m.serveRun i input
  | .parse start input => Sum.inr <$> m.serveParse start input

/-- The machine answers a request. -/
def answer (m : Machine σ) : Request → Run σ (Outcome ⊕ Value)
  | .run i input => Sum.inl <$> m.run i input
  | .parse start input => Sum.inr <$> m.parse start input

end Request

namespace Counted

/-- The states of the host where rules are counted and where they are not, with `d` rules inside one
another. -/
def At (d : ℕ) (c : Counted σ) (h : σ) : Prop := c.host = h ∧ c.depth = d

/-- The same, with any number of rules. -/
def Of (c : Counted σ) (h : σ) : Prop := c.host = h

theorem At.of {d : ℕ} (c : Counted σ) (h : σ) (hc : c.At d h) : c.Of h := hc.1

theorem mirrors (H : Host σ) (d : ℕ) : H.counted.Mirrors (At d) H := by
  rintro f context args ⟨h, depth⟩ _ ⟨rfl, rfl⟩
  exact ⟨rfl, rfl, rfl⟩

end Counted

namespace Run

/-- A rule is counted out however it ends. -/
theorem Parallel.leave {f : Run (Counted σ) α} {f' : Run σ α} {d : ℕ}
    (hf : Parallel (Counted.At (d + 1)) Counted.Of f f') {s : State (Counted σ)} {h : σ}
    (hs : s.host.At (d + 1) h) :
    Mirrored (Counted.At d) Counted.Of (tryFinally f (modify State.leave) s) (f' (s.withHost h)) := by
  have hfinally : tryFinally f (modify State.leave) s = match f s with
      | .ok a t => .ok a t.leave
      | .error x t => .error x t.leave := by
    simp only [tryFinally, tryFinally', Functor.map, EStateM.map]
    cases f s with
    | ok a t => rfl
    | error x t => rfl
  have hends := hf s h hs
  rw [hfinally]
  cases hx : f s with
  | ok a t =>
    rw [hx] at hends
    obtain ⟨k, ⟨hhost, hdepth⟩, hends⟩ := hends
    exact ⟨k, ⟨hhost, by simp [State.leave, hdepth]⟩, hends⟩
  | error x t =>
    rw [hx] at hends
    exact hends

/-- The count of the rules inside one another is the depth at which they are. -/
theorem countedRule_parallel {H : Host σ} {env : Env (Counted σ)} (hH : env.host = H.counted)
    (rules : List LoadedRule) (fuel : ℕ) {gas d : ℕ} (hd : gas + d = env.limits.callDepth) (i : ℕ) :
    Parallel (Counted.At d) Counted.Of (countedRule env rules fuel gas i)
      (Run.rule (env.withHost H) rules fuel gas i) := by
  -- a rule that is let in finds the count below the limit, so that `gas` is left
  induction gas generalizing d i with
  | zero =>
    rw [countedRule, Run.rule]
    cases rules[i]? with
    | none => exact .stop Counted.At.of _
    | some r =>
      rintro s h ⟨hhost, hdepth⟩
      have hover : env.limits.callDepth < s.enter.host.depth := by
        simp only [State.enter]
        omega
      change Mirrored _ _
        ((if env.limits.callDepth < s.enter.host.depth then _ else _ : Run _ _) s.enter) _
      rw [if_pos hover]
      exact ⟨h, hhost, rfl⟩
  | succ gas ih =>
    rw [countedRule, Run.rule]
    cases rules[i]? with
    | none => exact .stop Counted.At.of _
    | some r =>
      rintro s h ⟨hhost, hdepth⟩
      have hunder : ¬env.limits.callDepth < s.enter.host.depth := by
        simp only [State.enter]
        omega
      change Mirrored _ _
        ((if env.limits.callDepth < s.enter.host.depth then _ else _ : Run _ _) s.enter) _
      rw [if_neg hunder]
      have hcalls : env.host.Mirrors (Counted.At (d + 1)) H := hH ▸ Counted.mirrors H (d + 1)
      have hbody : Parallel (Counted.At (d + 1)) Counted.Of
          (r.body.run env fuel (countedRule env rules fuel gas) r.name [])
          (r.body.run (env.withHost H) fuel (Run.rule (env.withHost H) rules fuel gas) r.name []) :=
        (Parallel.lockstep Counted.At.of hcalls).block (ih (by omega)) r.body []
      have henter : s.enter.host.At (d + 1) h := ⟨hhost, congrArg (· + 1) hdepth⟩
      exact (hbody.leave henter).bind fun S => .ofExcept Counted.At.of _

end Run

namespace Interpreter

variable {f : Input → Run (Counted σ) α} {t : Interpreter σ} {s : State (Counted σ)} {a : α} {x : Stop}

theorem lift_ok (h : f t.input t.state = .ok a s) : lift f t = .ok a { t with state := s } := by
  rw [lift, h]

theorem lift_error (h : f t.input t.state = .error x s) :
    lift f t = .error x { t with state := s } := by
  rw [lift, h]

/-- The state without the count. -/
def plain (t : Interpreter σ) : State σ := t.state.withHost t.host

/-- The end of the machine that an end of the interpreter is. -/
def forget : EStateM.Result Stop (Interpreter σ) α → EStateM.Result Stop (State σ) α
  | .ok a t => .ok a t.plain
  | .error x t => .error x t.plain

/-- The interpreter, which has read this input, ends as the machine does. -/
def Shows (input : String) :
    EStateM.Result Stop (Interpreter σ) α → EStateM.Result Stop (State σ) α → Prop
  | .ok a t, r => t.input = .ofString input ∧ r = .ok a t.plain
  | .error x t, r => r = .error x t.plain

theorem Shows.forget {input : String} {r : EStateM.Result Stop (Interpreter σ) α}
    {r' : EStateM.Result Stop (State σ) α} (h : Shows input r r') : forget r = r' := by
  cases r with
  | ok a t => exact h.2.symm
  | error x t => exact Eq.symm h

theorem forget_map {β : Type} (f : α → β) {g : EStateM Stop (Interpreter σ) α} {g' : Run σ α}
    (h : forget (g t) = g' t.plain) : forget ((f <$> g) t) = (f <$> g') t.plain := by
  change forget (EStateM.map f g t) = EStateM.map f g' t.plain
  unfold EStateM.map
  rw [← h]
  cases g t with
  | ok a u => rfl
  | error x u => rfl

end Interpreter

namespace Machine

open Interpreter

theorem serveRun_shows (m : Machine σ) (i : ℕ) (input : String) (t : Interpreter σ) :
    Shows input (m.serveRun i input t) (m.run i input t.plain) := by
  let env : Env (Counted σ) := ⟨m.program, m.host.counted, m.limits, .ofString input⟩
  have hhost : env.host = m.host.counted := rfl
  have hrule := Run.countedRule_parallel hhost m.program.load m.fuel (Nat.add_zero _) i
    (.start ⟨t.host, 0⟩) t.host ⟨rfl, rfl⟩
  change Shows input (EStateM.bind (m.exec i) _ (t.reset input))
    (EStateM.bind (Run.rule (m.env input) m.program.load m.fuel m.limits.callDepth i) _ (.start t.host))
  unfold EStateM.bind
  cases hx : Run.countedRule env m.program.load m.fuel m.limits.callDepth i (.start ⟨t.host, 0⟩) with
  | ok v s =>
    have hexec : m.exec i (t.reset input) = .ok v ⟨.ofString input, s⟩ := lift_ok hx
    rw [hx] at hrule
    obtain ⟨h, ⟨rfl, -⟩, hr⟩ := hrule
    have hr : Run.rule (m.env input) m.program.load m.fuel m.limits.callDepth i (.start t.host) =
        .ok v (s.withHost s.host.host) := hr
    rw [hexec, hr]
    exact ⟨rfl, rfl⟩
  | error x s =>
    have hexec : m.exec i (t.reset input) = .error x ⟨.ofString input, s⟩ := lift_error hx
    rw [hx] at hrule
    obtain ⟨h, rfl, hr⟩ := hrule
    have hr : Run.rule (m.env input) m.program.load m.fuel m.limits.callDepth i (.start t.host) =
        .error x (s.withHost s.host.host) := hr
    rw [hexec, hr]
    rfl

theorem forget_serveParse (m : Machine σ) (start input : String) (t : Interpreter σ) :
    forget (m.serveParse start input t) = m.parse start input t.plain := by
  unfold serveParse parse
  cases m.program.ruleIndex? start with
  | none => rfl
  | some i =>
    have hrun := m.serveRun_shows i input t
    change forget (EStateM.bind (m.serveRun i input) _ t) =
      EStateM.bind (m.run i input) _ t.plain
    unfold EStateM.bind
    cases hx : m.serveRun i input t with
    | ok o u =>
      rw [hx] at hrun
      obtain ⟨hinput, hr⟩ := hrun
      rw [hr]
      obtain ⟨_, s⟩ := u
      obtain rfl : _ = Input.ofString input := hinput
      change forget ((if !o.value.isFailed && o.pos == (Input.ofString input).size then pure o.value
        else _ : EStateM Stop (Interpreter σ) Value) _) =
          (if !o.value.isFailed && o.pos == (Input.ofString input).size then pure o.value
            else _ : Run σ Value) _
      split
      · rfl
      · split
        · rfl
        · rfl
    | error x u =>
      rw [hx] at hrun
      rw [← hrun.forget]
      rfl

end Machine

/-- What is seen of an end: the answer, and the state of the host. -/
def seen {S : Type} (host : S → σ) : EStateM.Result Stop S α → Except Stop α × σ
  | .ok a t => (.ok a, host t)
  | .error x t => (.error x, host t)

theorem Interpreter.seen_eq (r : EStateM.Result Stop (Interpreter σ) α) :
    seen host r = seen (·.host) (forget r) := by
  cases r with
  | ok a t => rfl
  | error x t => rfl

namespace Request

variable {m : Machine σ} {r : Request}

/-- An interpreter answers as the machine does. -/
theorem forget_serve (m : Machine σ) (r : Request) (t : Interpreter σ) :
    Interpreter.forget (r.serve m t) = r.answer m t.plain := by
  cases r with
  | run i input => exact Interpreter.forget_map _ (m.serveRun_shows i input t).forget
  | parse start input => exact Interpreter.forget_map _ (m.forget_serveParse start input t)

/-- The machine looks at nothing but the state of the host. -/
theorem seen_answer (m : Machine σ) (r : Request) {s s' : State σ} (h : s.host = s'.host) :
    seen (·.host) (r.answer m s) = seen (·.host) (r.answer m s') := by
  have hrun (i : ℕ) (input : String) : m.run i input s = m.run i input s' := by
    change EStateM.bind (Run.rule _ _ _ _ i) _ (.start s.host) = EStateM.bind _ _ (.start s'.host)
    rw [h]
  cases r with
  | run i input =>
    change seen _ (EStateM.map _ (m.run i input) s) = seen _ (EStateM.map _ (m.run i input) s')
    rw [EStateM.map, EStateM.map, hrun]
  | parse start input =>
    change seen _ (EStateM.map _ (m.parse start input) s) =
      seen _ (EStateM.map _ (m.parse start input) s')
    unfold EStateM.map Machine.parse
    cases m.program.ruleIndex? start with
    | none => exact Prod.ext rfl h
    | some i =>
      have hbind {f : Outcome → Run σ Value} : (m.run i input >>= f) s = (m.run i input >>= f) s' := by
        change EStateM.bind _ _ s = EStateM.bind _ _ s'
        rw [EStateM.bind, EStateM.bind, hrun]
      dsimp only
      rw [hbind]

theorem answer_parallel {R : σ → τ → Prop} {G : Host τ} (hH : m.host.Mirrors R G) (r : Request) :
    Run.Parallel R R (r.answer m) (r.answer (m.withHost G)) := by
  cases r with
  | run i input =>
    rw [answer, answer, map_eq_pure_bind, map_eq_pure_bind]
    exact (Machine.run_parallel (fun _ _ h => h) hH i input).bind fun o => .pure _
  | parse start input =>
    rw [answer, answer, map_eq_pure_bind, map_eq_pure_bind]
    exact (Machine.parse_parallel (fun _ _ h => h) hH start input).bind fun v => .pure _

end Request

namespace Machine

/-- The interpreter after a request, however that has ended. -/
def after (m : Machine σ) (t : Interpreter σ) (r : Request) : Interpreter σ :=
  match r.serve m t with
  | .ok _ u | .error _ u => u

/-- The answers to requests that one interpreter serves one after the other, and the host after them. -/
def serveAll (m : Machine σ) (t : Interpreter σ) :
    List Request → List (Except Stop (Outcome ⊕ Value)) × σ
  | [] => ([], t.host)
  | r :: rs =>
    let (answers, h) := m.serveAll (m.after t r) rs
    ((seen Interpreter.host (r.serve m t)).1 :: answers, h)

/-- The answers to requests if each of them is served from the start, with the host that the one before
it has left. -/
def answerAll (m : Machine σ) (h : σ) : List Request → List (Except Stop (Outcome ⊕ Value)) × σ
  | [] => ([], h)
  | r :: rs =>
    let (answer, h) := seen (·.host) (r.answer m (.start h))
    let (answers, h) := m.answerAll h rs
    (answer :: answers, h)

variable {m : Machine σ}

theorem seen_serve (m : Machine σ) (r : Request) (t : Interpreter σ) :
    seen Interpreter.host (r.serve m t) = seen (·.host) (r.answer m (.start t.host)) := by
  rw [Interpreter.seen_eq, r.forget_serve]
  exact r.seen_answer m rfl

theorem serveAll_eq (m : Machine σ) (t : Interpreter σ) (rs : List Request) :
    m.serveAll t rs = m.answerAll t.host rs := by
  induction rs generalizing t with
  | nil => rfl
  | cons r rs ih =>
    have hhost : (m.after t r).host = (seen Interpreter.host (r.serve m t)).2 := by
      rw [after]
      cases r.serve m t with
      | ok a u => rfl
      | error x u => rfl
    rw [serveAll, answerAll, ih, hhost, seen_serve]

/-- A recording host that has been asked some calls before, beside one that has not. -/
def HasAsked (before : List HostCall) (x y : σ × List HostCall) : Prop := y = (x.1, before ++ x.2)

theorem hasAsked_mirrors (H : Host σ) (before : List HostCall) :
    H.recorded.Mirrors (HasAsked before) H.recorded := by
  rintro f context args ⟨h, calls⟩ _ rfl
  refine ⟨rfl, ?_⟩
  simp only [HasAsked, Host.recorded, List.append_assoc]

/-- The calls of a request do not depend on those before it. -/
theorem seen_recorded (m : Machine σ) (r : Request) (h : σ) (before : List HostCall) :
    ∃ answer h' calls,
      seen (·.host) (r.answer (m.withHost m.host.recorded) (.start (h, []))) = (answer, h', calls) ∧
      seen (·.host) (r.answer (m.withHost m.host.recorded) (.start (h, before))) =
        (answer, h', before ++ calls) := by
  have hends := r.answer_parallel (m := m.withHost m.host.recorded) (hasAsked_mirrors m.host before)
    (.start (h, [])) (h, before) (Prod.ext rfl (List.append_nil before).symm)
  change Run.Mirrored _ _ _ (r.answer (m.withHost m.host.recorded) (.start (h, before))) at hends
  cases hx : r.answer (m.withHost m.host.recorded) (.start (h, [])) with
  | ok a s =>
    rw [hx] at hends
    obtain ⟨k, rfl, hends⟩ := hends
    exact ⟨.ok a, s.host.1, s.host.2, rfl, by rw [hends]; rfl⟩
  | error x s =>
    rw [hx] at hends
    obtain ⟨k, rfl, hends⟩ := hends
    exact ⟨.error x, s.host.1, s.host.2, rfl, by rw [hends]; rfl⟩

/-- Requests are independent of one another. After any requests on one interpreter, and however each of
them has ended, the next one has the answer, the calls and the state of the host that it has on an
interpreter that has run nothing and is handed the state of the host. -/
theorem serve_after (m : Machine σ) (h : σ) (rs : List Request) (r : Request) :
    let t := rs.foldl m.after (.fresh h)
    let M := m.withHost m.host.recorded
    let u := rs.foldl M.after (.fresh (h, []))
    m.serveAll (.fresh h) rs = m.answerAll h rs ∧
      seen Interpreter.host (r.serve m t) = seen Interpreter.host (r.serve m (.fresh t.host)) ∧
      seen Interpreter.host (r.serve m t) = seen (·.host) (r.answer m (.start t.host)) ∧
      ∃ answer h' calls,
        seen Interpreter.host (r.serve M (.fresh (u.host.1, []))) = (answer, h', calls) ∧
        seen Interpreter.host (r.serve M u) = (answer, h', u.host.2 ++ calls) := by
  intro t M u
  refine ⟨m.serveAll_eq (.fresh h) rs, ?_, m.seen_serve r t, ?_⟩
  · rw [m.seen_serve r t, m.seen_serve r (.fresh t.host)]
    rfl
  · rw [M.seen_serve r u, M.seen_serve r]
    exact m.seen_recorded r u.host.1 u.host.2

/-- Much is left over from a rule that enters itself until it may go no deeper. -/
example :
    let p : Program := ⟨[⟨"a", Code.seq [.silenceOn, .rule 0]⟩], []⟩
    let m : Machine Unit := ⟨p, .none, { callDepth := 2 }, 0⟩
    let t := m.after (.fresh ()) (.run 0 "x")
    (t.state.host.depth, t.state.silence, t.state.steps) = (1, 2, 4) := by
  decide +kernel

end Machine
end PegMachine
