import PegMachine.Proofs.Bindings
import PegMachine.Proofs.Compile.Elements
import PegMachine.Proofs.Semantics.Program

/-! Which values the host is given. The runs of sequences, of actions on them and of guards are spelled
out without slots: each call names the labels in scope and hands over the values that they were bound
to last. -/
namespace PegMachine

variable {σ : Type}

open Run

namespace Activation

variable (A : Activation σ)

/-- Runs code for the value that it puts on the stack. -/
def value (c : Code) (S : Stack) : Run σ Value := do
  let S' ← A.exec 0 c S
  ofExcept S'.top

/-- Asks the host for the answer of a function. -/
def ask (f : ActionFn) (args : List Value) : Run σ Value := do
  let s ← get
  let (answer, p) := s.toProgress.call A.env.host A.env.input s.reported f args
  set { s with toProgress := p }
  match answer with
  | .ok v => pure v
  | .error e => throw (.host e)

/-- Asks the host, once it is noted where the text begins that the call reports on. -/
def call (start : ℕ → ℕ) (f : ActionFn) (args : List Value) (S : Stack) : Run σ Value := do
  tick A.env.limits S
  modify fun s => { s with reported := start s.pos }
  tick A.env.limits S
  A.ask f args

/-- Gives up a sequence that was started at place `p` on the stack `S`; the stack is `T` now. -/
def giveUp (p : ℕ) (S T : Stack) : Run σ Stack := do
  tick A.env.limits T
  tick A.env.limits (.pos p :: S)
  seek p
  tick A.env.limits S
  pure (.failed :: S)

/-- Runs the elements of a sequence that are left after those with the values `vs`. Each is run on top
of the values before it, and the first that fails ends it all. -/
def elements (p : ℕ) (S : Stack) (finish : List Value → Run σ Stack) :
    List Code → List Value → Run σ Stack
  | [], vs => finish vs
  | c :: cs, vs => do
    let v ← A.value c (vs.reverse ++ .pos p :: S)
    tick A.env.limits (v :: (vs.reverse ++ .pos p :: S))
    if v.isFailed then A.giveUp p S (v :: (vs.reverse ++ .pos p :: S))
    else elements p S finish cs (vs ++ [v])

/-- Runs a sequence whose elements have the codes `cs`; `finish` is told where it has started and what
the values of the elements are. -/
def sequence (finish : ℕ → List Value → Run σ Stack) (cs : List Code) (S : Stack) : Run σ Stack := do
  tick A.env.limits S
  let s ← get
  A.elements s.pos S (finish s.pos) cs []

end Activation

/-- The bindings in scope for code that is compiled with the scope `s` and the top of the stack at slot
`sp` and that is run on the stack `S`. -/
inductive InScope : Bindings → ℤ → Scope → Stack → Prop
  | none (sp : ℤ) (S : Stack) : InScope [] sp [] S
  /-- After some elements of a sequence that was started at place `p`. -/
  | after {bs : Bindings} {sp : ℤ} {s : Scope} {S : Stack} (h : InScope bs sp s S) (p : ℕ)
      {es : List Expr} {vs : List Value} (hl : vs.length = es.length) :
      InScope (bs ++ (es.map Expr.label?).zip vs) (sp + 1 + es.length) (Scope.after (sp + 1) es s)
        (vs.reverse ++ .pos p :: S)

/-- The law of labels. An action on a sequence with elements is called with the labels that these
bind. A guard is called with the labels in scope: those that the elements before it bind, after
those in scope for its sequence, if that is an element itself. Names around an element are no matter,
and in the parts of any other expression no label is in scope. -/
structure Activation.BindsLabels (A : Activation σ) (g : Grammar) : Prop where
  action {e : Expr} {es : List Expr} {code : String} {ctx : Context} {s : Scope} {c : Code}
    (hc : (Expr.action (.sequence (e :: es)) code).HasCode A.env.program.consts g.ruleIndex? ctx s c) :
    ∃ cs, ElementCodes A.env.program.consts g.ruleIndex? (e :: es) (ctx.sp + 1) [] cs ∧
      ∀ ip S, A.exec ip c S = A.sequence (fun p vs => do
        let bs : Bindings := ((e :: es).map Expr.label?).zip vs
        let v ← A.call (fun _ => p) ⟨bs.params, code⟩ bs.args (vs.reverse ++ .pos p :: S)
        tick A.env.limits (v :: .pos p :: S)
        pure (v :: S)) cs S
  sequence {es : List Expr} {ctx : Context} {s : Scope} {c : Code}
    (hc : (Expr.sequence es).HasCode A.env.program.consts g.ruleIndex? ctx s c)
    (ha : ctx.action = none) :
    ∃ cs, ElementCodes A.env.program.consts g.ruleIndex? es (ctx.sp + 1) s cs ∧
      ∀ ip S, A.exec ip c S = A.sequence (fun p vs => do
        tick A.env.limits (vs.reverse ++ .pos p :: S)
        tick A.env.limits (.array vs :: .pos p :: S)
        pure (.array vs :: S)) cs S
  named {name : String} {e : Expr} {ctx : Context} {s : Scope} {c : Code}
    (hc : (Expr.named name e).HasCode A.env.program.consts g.ruleIndex? ctx s c) :
    ∃ inner, e.HasCode A.env.program.consts g.ruleIndex? ctx s inner ∧
      ∀ ip S, A.exec ip c S = (do
        tick A.env.limits S
        modify fun s => { s with silence := s.silence + 1 }
        let v ← A.value inner S
        tick A.env.limits (v :: S)
        modify fun s => { s with silence := s.silence - 1 }
        tick A.env.limits (v :: S)
        if v.isFailed then do
          tick A.env.limits (v :: S)
          tick A.env.limits S
          modify fun s => { s with toProgress := s.toProgress.fail (.other name) }
          pure (.failed :: S)
        else pure (v :: S))
  guard (negated : Bool) {code : String} {ctx : Context} {s : Scope} {c : Code} {bs : Bindings}
    {S : Stack}
    (hc : (if negated then Expr.guardNot code else .guard code).HasCode A.env.program.consts
      g.ruleIndex? ctx s c)
    (hs : InScope bs ctx.sp s S) (ip : ℕ) :
    A.exec ip c S = (do
      let v ← A.call id ⟨bs.params, code⟩ bs.args S
      tick A.env.limits (v :: S)
      tick A.env.limits (v :: S)
      tick A.env.limits S
      pure ((if v.isTruthy = negated then .failed else .undefined) :: S))
  part {e d : Expr} {ctx : Context} {s : Scope} {c : Code} (he : e.isScoped = false)
    (hd : d ∈ e.children) (hc : e.HasCode A.env.program.consts g.ruleIndex? ctx s c) :
    d.ClosedIn A.env.program.consts g.ruleIndex? c

/-- The law of labels in every rule. A rule runs the code of its body, where no label is in scope. -/
structure Machine.BindsLabels (m : Machine σ) (g : Grammar) (input : String) : Prop where
  rule {i : ℕ} {r : Rule} (hr : g.rules[i]? = some r) :
    ∃ c, r.body.HasCode m.program.consts g.ruleIndex? .rule [] c ∧ ∀ depth,
      Run.rule (m.env input) m.program.load m.fuel (depth + 1) i =
        (m.activation input depth r.name).value c []
  within (depth : ℕ) (name : String) : (m.activation input depth name).BindsLabels g

/-! The labels in scope. -/

variable {bs : Bindings} {sp : ℤ} {s : Scope} {S : Stack} {es : List Expr} {vs : List Value}

theorem Scope.Reads.after (h : s.Reads sp S bs.labels) (hl : vs.length = es.length) :
    (Scope.after sp es s).Reads (sp + es.length) (vs.reverse ++ S)
      (Bindings.labels (bs ++ (es.map Expr.label?).zip vs)) := by
  induction es generalizing bs sp s S vs with
  | nil =>
    obtain rfl := List.eq_nil_of_length_eq_zero hl
    simpa [Scope.after] using h
  | cons e es ih =>
    obtain ⟨v, vs, rfl⟩ := List.exists_cons_of_length_eq_add_one hl
    have hbind := h.bind v e
    rw [Expr.bind_labels] at hbind
    have hrest := ih hbind (Nat.succ.inj hl)
    rw [Scope.after]
    simpa [List.append_assoc, Int.add_assoc, Int.add_comm 1] using hrest

theorem InScope.reads (h : InScope bs sp s S) : s.Reads sp S bs.labels := by
  induction h with
  | none sp S => exact .nil
  | after h p hl ih => exact (ih.push (.pos p)).after hl

/-! The runs of code, spelled out. -/

variable {A : Activation σ} {K : List Constant} {rules : String → Option ℕ} {e : Expr} {ctx : Context}
  {c yes no br : Code} {i : Instr} {v : Value} {S' : Stack} {ip p : ℕ}

namespace Activation

/-- Code of an expression runs for its value. -/
theorem exec_expr (hc : e.Shape K rules ctx s c) (A : Activation σ) (ip : ℕ) (S : Stack) :
    A.exec ip c S = A.value c S >>= fun v => pure (v :: S) := by
  rw [(hc.balanced 0).exec_eq A ip 0, value, bind_assoc]
  funext t
  change _ = EStateM.bind _ _ _
  unfold EStateM.bind
  cases hx : A.exec 0 c S t with
  | error x t' => rfl
  | ok S' t' =>
    obtain ⟨V, hV, rfl⟩ := (hc.balanced 0).frame (U := []) rfl hx
    obtain ⟨v, rfl⟩ := List.length_eq_one_iff.mp hV
    rfl

/-- A test of the stack runs one of its bodies. -/
theorem exec_test {t : Test} (answer : Bool) (hb : Code.branch t.words yes no = .ok br)
    (ht : ∀ p, t.holds A.env p S = .ok (answer, S')) (ip : ℕ) : ∃ j k, A.exec ip br S = (do
      tick A.env.limits S
      if answer then A.exec j yes S' else A.exec k no S') := by
  obtain ⟨j, k, hx⟩ := A.exec_branch hb ip S
  refine ⟨j, k, hx.trans (bind_congr fun _ => ?_)⟩
  simp only [ht]
  rfl

theorem exec_moves (hi : i.Moves A S S') (ip : ℕ) (c : Code) :
    A.exec ip (i.words ++ c) S = (do
      tick A.env.limits S
      A.exec (ip + i.words.length) c S') := by
  have hrun : i.run A.env A.rule S = pure S' := funext hi
  rw [exec_words, hrun]
  simp only [pure_bind]

theorem exec_popPos (ip : ℕ) (c : Code) (S : Stack) :
    A.exec ip (Instr.popPos.words ++ c) (.pos p :: S) = (do
      tick A.env.limits (.pos p :: S)
      seek p
      A.exec (ip + Instr.popPos.words.length) c S) := by
  rw [exec_words]
  rfl

/-- A call, behind the instruction that notes where its text begins. -/
theorem exec_ask {f : UInt32} {fn : ActionFn} {n : ℕ} {call : Code} {ls : Labels Value}
    (start : ℕ → ℕ) (hi : ∀ t, i.run A.env A.rule S t = .ok S { t with reported := start t.pos })
    (hc : Code.call f n s sp = .ok call) (hf : A.env.program.function f = .ok fn)
    (hs : s.Reads sp S ls) (hn : n ≤ S.length) (ip : ℕ) (c : Code) :
    ∃ j, A.exec ip (i.words ++ (call ++ c)) S = (do
      let v ← A.call start fn ls.values S
      A.exec j c (v :: S.drop n)) := by
  have hw := Code.whole_call hc
  obtain ⟨slots, pops, k, ho, hpops, hk, rfl⟩ := Code.call_words hc
  have hpop : S.popN pops.toNat = .ok (S.drop n) := by
    rw [Stack.popN_eq_ok, hpops]
    exact ⟨hn, rfl⟩
  have hrun : i.run A.env A.rule S =
      (modify fun s : State σ => { s with reported := start s.pos }) >>= fun _ => pure S :=
    funext hi
  have hask : Run.callHost A.env f ls.values = A.ask fn ls.values := by
    rw [Run.callHost, hf]
    rfl
  refine ⟨ip + i.words.length + (Opcode.call.word :: f :: pops :: k :: slots).length, ?_⟩
  rw [exec_words, hrun]
  simp only [exec_append hw, exec_call hk, hs.peekAll ho, hpop, hask, Run.ofExcept, pure_bind,
    bind_assoc, Activation.call]

/-- The two instructions of an answer: a value on the stack is replaced by a constant. -/
theorem exec_replace {k : UInt32} {x : Constant} {w : Value} (hk : A.Has k x)
    (hw : x.value? = some w) (ip : ℕ) (v : Value) (S : Stack) :
    A.exec ip (Code.seq [.pop, .push k]) (v :: S) = (do
      tick A.env.limits (v :: S)
      tick A.env.limits S
      pure (w :: S)) := by
  rw [Code.seq_cons, Code.seq_cons, exec_moves Instr.moves_pop, exec_moves (hk.push hw),
    Code.seq_nil, exec_nil]

theorem exec_guard {negated : Bool} {code : String}
    (hK : A.env.program.consts.length ≤ UInt32.size)
    (hc : GuardCode A.env.program.consts negated code ctx s c) (hs : s.Reads ctx.sp S bs.labels)
    (ip : ℕ) : A.exec ip c S = (do
      let v ← A.call id ⟨bs.params, code⟩ bs.args S
      tick A.env.limits (v :: S)
      tick A.env.limits (v :: S)
      tick A.env.limits S
      pure ((if v.isTruthy = negated then .failed else .undefined) :: S)) := by
  obtain ⟨hf, hu, hd, hc, ha⟩ := hc
  have hfun := (hf.has hK).function hs
  rw [Bindings.names_labels] at hfun
  rw [Code.seq_cons, Code.seq_nil, List.append_nil, List.append_assoc]
  obtain ⟨j, hx⟩ := exec_ask (i := .reportHere) id (fun _ => rfl) hc hfun hs (Nat.zero_le _) ip _
  rw [hx, Bindings.values_labels]
  refine bind_congr fun v => ?_
  obtain ⟨k, k', hx⟩ := exec_test (S := v :: S) v.isTruthy ha (fun _ => rfl) j
  rw [List.drop_zero, hx]
  refine bind_congr fun _ => ?_
  have hu := fun ip => exec_replace (hu.has hK) rfl ip v S
  have hd := fun ip => exec_replace (hd.has hK) rfl ip v S
  cases negated <;> cases hv : v.isTruthy <;> simp [hu, hd]

/-- Where an element has failed, the values are dropped and the place is gone back to. -/
theorem exec_giveUp {drop : Code} {failed : UInt32} {U : Stack} (hd : DropCode U.length drop)
    (hF : A.Has failed .failed) (ip : ℕ) :
    A.exec ip (drop ++ Code.seq [.popPos, .push failed]) (U ++ .pos p :: S) =
      A.giveUp p S (U ++ .pos p :: S) := by
  have hback : ∀ ip, A.exec ip (Code.seq [.popPos, .push failed]) (.pos p :: S) = (do
      tick A.env.limits (.pos p :: S)
      seek p
      tick A.env.limits S
      pure (.failed :: S)) := by
    intro ip
    rw [Code.seq_cons, exec_popPos]
    refine bind_congr fun _ => bind_congr fun _ => ?_
    rw [Code.seq_cons, exec_moves (hF.push rfl), Code.seq_nil, exec_nil]
  generalize hn : U.length = n at hd
  cases hd with
  | one =>
    obtain ⟨v, rfl⟩ := List.length_eq_one_iff.mp hn
    rw [Code.seq_cons, Code.seq_nil, List.append_assoc, List.singleton_append,
      exec_moves Instr.moves_pop, List.nil_append, hback, giveUp]
  | many hk =>
    rw [Code.seq_cons, Code.seq_nil, List.append_assoc,
      exec_moves (Instr.moves_popN (hk.trans hn.symm)), List.nil_append, hback, giveUp]

theorem exec_collect_array {vs : List Value} {n : ℕ}
    (hc : CollectCode K n sp s none c) (hn : vs.length = n) (ip : ℕ) :
    A.exec ip c (vs.reverse ++ .pos p :: S) = (do
      tick A.env.limits (vs.reverse ++ .pos p :: S)
      tick A.env.limits (.array vs :: .pos p :: S)
      pure (.array vs :: S)) := by
  cases hc with
  | array hk =>
    have hwrap := Instr.moves_wrap (A := A) (U := vs.reverse) (S := .pos p :: S)
      (by rw [hk, List.length_reverse, hn])
    rw [List.reverse_reverse] at hwrap
    rw [Code.seq_cons, Code.seq_cons, exec_moves hwrap, exec_moves Instr.moves_nip, Code.seq_nil,
      exec_nil]

theorem exec_collect_action {vs : List Value} {code : String} {n : ℕ}
    (hK : A.env.program.consts.length ≤ UInt32.size)
    (hc : CollectCode A.env.program.consts n sp s (some code) c)
    (hs : s.Reads sp (vs.reverse ++ .pos p :: S) bs.labels) (hn : vs.length = n) (ip : ℕ) :
    A.exec ip c (vs.reverse ++ .pos p :: S) = (do
      let v ← A.call (fun _ => p) ⟨bs.params, code⟩ bs.args (vs.reverse ++ .pos p :: S)
      tick A.env.limits (v :: .pos p :: S)
      pure (v :: S)) := by
  cases hc with
  | @action _ count f call hk hf hc =>
    have hfun := (hf.has hK).function hs
    rw [Bindings.names_labels] at hfun
    have hsaved : ∀ t, (Instr.reportSaved count).run A.env A.rule (vs.reverse ++ .pos p :: S) t =
        .ok (vs.reverse ++ .pos p :: S) { t with reported := p } := by
      intro t
      have hp : (vs.reverse ++ .pos p :: S)[count.toNat]? = some (.pos p) := by
        rw [hk, ← hn]
        simp
      rw [Instr.run, Stack.peek_eq_ok.mpr hp]
      rfl
    rw [Code.seq_cons, Code.seq_nil, List.append_nil, List.append_assoc]
    obtain ⟨j, hx⟩ := exec_ask (fun _ => p) hsaved hc hfun hs (by simp [← hn]) ip _
    rw [hx, Bindings.values_labels, List.drop_left' (by simpa using hn)]
    refine bind_congr fun v => ?_
    rw [Code.seq_cons, exec_moves Instr.moves_nip, Code.seq_nil, exec_nil]

theorem exec_named {name : String} {expected : UInt32} {inner report : Code}
    (hx : A.Has expected (.expectation (.other name))) (he : e.Shape K rules ctx s inner)
    (hr : Code.branch (Test.words .isFailed) (Code.seq [.pop, .fail expected]) [] = .ok report)
    (ip : ℕ) (S : Stack) :
    A.exec ip (Code.seq [.silenceOn] ++ inner ++ Code.seq [.silenceOff] ++ report) S = (do
      tick A.env.limits S
      modify fun s => { s with silence := s.silence + 1 }
      let v ← A.value inner S
      tick A.env.limits (v :: S)
      modify fun s => { s with silence := s.silence - 1 }
      tick A.env.limits (v :: S)
      if v.isFailed then do
        tick A.env.limits (v :: S)
        tick A.env.limits S
        modify fun s => { s with toProgress := s.toProgress.fail (.other name) }
        pure (.failed :: S)
      else pure (v :: S)) := by
  have hon : Instr.silenceOn.run A.env A.rule S =
      (modify fun s => { s with silence := s.silence + 1 }) >>= fun _ => pure S := rfl
  have hoff (v : Value) : Instr.silenceOff.run A.env A.rule (v :: S) =
      (modify fun s => { s with silence := s.silence - 1 }) >>= fun _ => pure (v :: S) := rfl
  have hfail : (Instr.fail expected).run A.env A.rule S =
      (modify fun s => { s with toProgress := s.toProgress.fail (.other name) }) >>= fun _ =>
        pure (.failed :: S) := by
    rw [Instr.run, hx.expectation]
    rfl
  simp only [Code.seq_cons, Code.seq_nil, List.append_nil, List.append_assoc] at hr ⊢
  rw [exec_words, hon]
  simp only [exec_append he.whole, exec_expr he, exec_words, hoff, bind_assoc, pure_bind]
  refine bind_congr fun _ => bind_congr fun _ => bind_congr fun v => ?_
  refine bind_congr fun _ => bind_congr fun _ => ?_
  obtain ⟨j, k, hx⟩ := exec_test (A := A) (S := v :: S) v.isFailed hr (fun _ => rfl) _
  rw [hx]
  refine bind_congr fun _ => ?_
  cases v.isFailed with
  | true =>
    rw [if_pos rfl, if_pos rfl, exec_moves Instr.moves_pop, exec_instr, hfail]
  | false => exact exec_nil

end Activation

/-- Code that is put together from the codes of elements runs them one after the other. -/
theorem Assembled.exec {failed : UInt32} {last : Code} {cs : List Code} {n : ℕ}
    {finish : List Value → Run σ Stack} (hc : Assembled failed last cs n c)
    (hcs : ∀ d ∈ cs, ∃ e ctx s, Expr.Shape K rules e ctx s d) (hF : A.Has failed .failed)
    (hlast : ∀ vs ip, vs.length = n + cs.length →
      A.exec ip last (vs.reverse ++ .pos p :: S) = finish vs)
    (vs : List Value) (hn : vs.length = n) (ip : ℕ) :
    A.exec ip c (vs.reverse ++ .pos p :: S) = A.elements p S finish cs vs := by
  -- every element adds its value to those on the stack, so the induction is over any number of them
  induction hc generalizing vs ip with
  | nil => exact hlast vs ip hn
  | @cons first others drop rest cs n ho hd hr ih =>
    obtain ⟨e, ctx, s, he⟩ := hcs first List.mem_cons_self
    rw [Activation.exec_append he.whole, Activation.exec_expr he, bind_assoc, Activation.elements]
    refine bind_congr fun v => ?_
    rw [pure_bind]
    obtain ⟨j, k, hx⟩ := Activation.exec_test (A := A) (S := v :: (vs.reverse ++ .pos p :: S))
      (!v.isFailed) hr (fun _ => rfl) (ip + first.length)
    rw [hx]
    refine bind_congr fun _ => ?_
    have hrev : v :: (vs.reverse ++ .pos p :: S) = (vs ++ [v]).reverse ++ .pos p :: S := by simp
    cases v.isFailed with
    | true =>
      have hdrop : DropCode (v :: vs.reverse).length drop := by
        simpa [hn] using hd
      exact Activation.exec_giveUp hdrop hF k
    | false =>
      rw [hrev]
      refine ih (fun d hd => hcs d (List.mem_cons_of_mem _ hd)) (fun vs ip hl => ?_) (vs ++ [v]) ?_ j
      · refine hlast vs ip ?_
        rw [hl, List.length_cons]
        omega
      · rw [List.length_append, hn]
        rfl

theorem Activation.exec_sequence {failed : UInt32} {body last : Code} {cs : List Code}
    {finish : ℕ → List Value → Run σ Stack} (hF : A.Has failed .failed)
    (hcs : ElementCodes K rules es sp s cs) (hb : Assembled failed last cs 0 body)
    (hlast : ∀ p vs ip, vs.length = es.length →
      A.exec ip last (vs.reverse ++ .pos p :: S) = finish p vs) (ip : ℕ) :
    A.exec ip (Code.seq [.pushPos] ++ body) S = A.sequence finish cs S := by
  rw [Code.seq_cons, Code.seq_nil, List.append_nil, exec_words, sequence]
  refine bind_congr fun _ => ?_
  rw [Instr.run, bind_assoc]
  refine bind_congr fun t => ?_
  rw [pure_bind]
  refine hb.exec (fun _ hd => hcs.shape hd) hF (fun vs ip hl => ?_) [] rfl _
  rw [Nat.zero_add, hcs.length_eq] at hl
  exact hlast t.pos vs ip hl

/-- The law of labels for the code of expressions in a program that has numbers for its constants. -/
theorem Activation.bindsLabels (A : Activation σ) (g : Grammar)
    (hK : A.env.program.consts.length ≤ UInt32.size) : A.BindsLabels g := by
  constructor
  case action =>
    intro e es code ctx s c hc
    have hseq : (Expr.sequence (e :: es)).HasCode A.env.program.consts g.ruleIndex?
        ((ctx.push 0).withAction code) [] c := by
      obtain ⟨p, q, hc, hq⟩ := hc
      rw [Expr.compile, Expr.hasElements, if_pos rfl] at hc
      exact ⟨p, q, hc, hq⟩
    obtain ⟨failed, body, cs, last, rfl, hF, hcs, hb, hlast⟩ := hseq.of_yields (yields_sequence _ _ _)
    have hsp : ((ctx.push 0).withAction code).sp = ctx.sp := Int.add_zero _
    rw [hsp] at hcs hlast
    refine ⟨cs, hcs, fun ip S => exec_sequence (hF.has hK) hcs hb (fun p vs ip hl => ?_) ip⟩
    exact exec_collect_action hK hlast ((InScope.none ctx.sp S).after p hl).reads hl ip
  case sequence =>
    intro es ctx s c hc ha
    obtain ⟨failed, body, cs, last, rfl, hF, hcs, hb, hlast⟩ := hc.of_yields (yields_sequence _ _ _)
    rw [ha] at hlast
    refine ⟨cs, hcs, fun ip S => exec_sequence (hF.has hK) hcs hb (fun p vs ip hl => ?_) ip⟩
    exact exec_collect_array hlast hl ip
  case named =>
    intro name e ctx s c hc
    obtain ⟨expected, inner, report, rfl, hx, he, hr⟩ := hc.of_yields (Expr.yields_named _ _ _ _)
    exact ⟨inner, he, exec_named (hx.has hK) he.shape hr⟩
  case guard =>
    intro negated code ctx s c bs S hc hs ip
    refine exec_guard hK ?_ hs.reads ip
    have hshape := hc.shape
    cases negated with
    | true =>
      cases hshape with
      | guardNot hc => exact hc
    | false =>
      cases hshape with
      | guard hc => exact hc
  case part =>
    intro e d ctx s c he hd hc
    exact hc.of_yields (e.yields_parts he ctx s) d hd

namespace Grammar

variable {g : Grammar} {m : Machine σ} {verify : Bool}

/-- In every rule of a compiled grammar the host is given the labels that are bound, each with the
value that it was bound to last. -/
theorem generate_bindsLabels (hg : g.generate verify = .ok m.program) (input : String) :
    m.BindsLabels g input := by
  obtain ⟨hconsts, -, hcodes⟩ := generate_codes hg
  constructor
  case rule =>
    intro i r hr
    obtain ⟨hi, rfl⟩ := List.getElem?_eq_some_iff.mp hr
    have hi' : i < m.program.rules.length := hcodes.length_eq ▸ hi
    have hcode : Rule.HasCode _ _ g.rules[i] m.program.rules[i] := hcodes.get hi hi'
    refine ⟨m.program.rules[i].code, hcode.2, fun depth => ?_⟩
    rw [m.rule_eq input depth (List.getElem?_eq_getElem hi'), hcode.1]
    rfl
  case within =>
    intro depth name
    exact (m.activation input depth name).bindsLabels g hconsts

/-- A guard behind the second of two letters with one label. It is handed the second. -/
theorem generate_bindsLabels_twins :
    let inner : Expr := .sequence [.labeled "a" .any, .guard "ok"]
    let outer : Expr := .sequence [.labeled "a" .any, inner]
    let g : Grammar := ⟨[⟨"twins", .action outer "join"⟩]⟩
    ∃ (m : Machine Unit) (c : Code), g.generate true = .ok m.program ∧
      (Expr.guard "ok").HasCode m.program.consts g.ruleIndex? ⟨3, none⟩ [("a", 3)] c ∧
      ∀ depth ip p q v w, let A := m.activation "ab" depth "twins"
        let S : Stack := [w, .pos q, v, .pos p]
        A.exec ip c S = (do
          let answer ← A.call id ⟨["a"], "ok"⟩ [w] S
          tick m.limits (answer :: S)
          tick m.limits (answer :: S)
          tick m.limits S
          pure ((if answer.isTruthy = false then .failed else .undefined) :: S)) := by
  intro inner outer g
  let code : Code := [1, 15, 2, 2, 19, 1, 21, 1, 11, 57, 4, 1, 15, 2, 2, 19, 1, 21, 1, 11, 26, 4, 23,
    24, 2, 0, 1, 0, 9, 3, 3, 2, 0, 3, 2, 0, 0, 11, 3, 5, 7, 2, 5, 4, 2, 3, 0, 0, 2, 3, 0, 0, 11, 8, 5,
    22, 2, 24, 4, 2, 1, 1, 5, 4, 2, 3, 0, 0, 2, 3, 0, 0]
  let consts : List Constant := [.failed, .expectation .anyChar, .function ⟨["a"], "ok"⟩, .undefined,
    .function ⟨["a"], "join"⟩]
  let m : Machine Unit := ⟨⟨[⟨"twins", code⟩], consts⟩, fun _ _ _ h => (.ok .null, h), {}, 0⟩
  have hg : g.generate true = .ok m.program := by decide +kernel
  have hlaw := generate_bindsLabels hg "ab"
  obtain ⟨body, hbody, -⟩ := hlaw.rule (i := 0) rfl
  obtain ⟨cs, hcs, -⟩ := (hlaw.within 0 "twins").action hbody
  have hlen := hcs.length_eq
  obtain ⟨c₁, c₂, rfl⟩ := List.length_eq_two.mp hlen
  obtain ⟨ds, hds, -⟩ := (hlaw.within 0 "twins").sequence (hcs.get (i := 1) rfl rfl) rfl
  obtain ⟨d₁, d₂, rfl⟩ := List.length_eq_two.mp hds.length_eq
  have hguard : (Expr.guard "ok").HasCode consts g.ruleIndex? ⟨3, none⟩ [("a", 3)] d₂ :=
    hds.get (i := 1) rfl rfl
  refine ⟨m, d₂, hg, hguard, fun depth ip p q v w => ?_⟩
  have hone (x : Value) : [x].length = [Expr.labeled "a" .any].length := rfl
  have hinner := ((InScope.none (-1) []).after p (hone v)).after q (hone w)
  exact (hlaw.within depth "twins").guard false hguard hinner ip

end Grammar
end PegMachine
