import PegMachine.Proofs.Compile.Shape

/-! How far labels reach in the code of an expression: an element of a sequence has those of the
elements before it in scope, and the parts of most other expressions have none. -/
namespace PegMachine

/-- The scope after elements: each that binds a label binds it to the slot of its value. -/
def Scope.after (sp : ℤ) : List Expr → Scope → Scope
  | [], s => s
  | e :: es, s => after (sp + 1) es (e.bind (sp + 1) s)

/-- The codes of the elements of a sequence, each with the labels before it in scope. -/
structure ElementCodes (K : List Constant) (rules : String → Option ℕ) (es : List Expr) (sp : ℤ)
    (s : Scope) (cs : List Code) : Prop where
  length_eq : cs.length = es.length
  get {i : ℕ} {e : Expr} {c : Code} (he : es[i]? = some e) (hc : cs[i]? = some c) :
    e.HasCode K rules ⟨sp + i, none⟩ (Scope.after sp (es.take i) s) c

/-- The code has that of the expression in it, compiled with no label in scope. -/
def Expr.ClosedIn (K : List Constant) (rules : String → Option ℕ) (e : Expr) (c : Code) : Prop :=
  ∃ sp c', e.HasCode K rules ⟨sp, none⟩ [] c' ∧ c' <:+: c

/-- Whether the labels in scope reach the parts of an expression, or it gathers labels of its own. -/
def Expr.isScoped : Expr → Bool
  | .named .. | .sequence _ => true
  | .action e _ => e.hasElements
  | _ => false

open Compile

variable {K : List Constant} {rules : String → Option ℕ} {e : Expr} {es : List Expr} {sp : ℤ}
  {s : Scope} {c yes no br : Code}

/-- How the code of a sequence is put together from the codes of its elements. `last` is what follows
them all, and the values of `n` elements lie on the stack. -/
inductive Assembled (failed : UInt32) (last : Code) : List Code → ℕ → Code → Prop
  | nil {n : ℕ} : Assembled failed last [] n last
  | cons {first others drop rest : Code} {cs : List Code} {n : ℕ}
      (ho : Assembled failed last cs (n + 1) others) (hd : DropCode (n + 1) drop)
      (hr : Code.branch (Test.words .isMatched) others (drop ++ Code.seq [.popPos, .push failed]) =
        .ok rest) : Assembled failed last (first :: cs) n (first ++ rest)

theorem ElementCodes.cons {cs : List Code} {first : Code}
    (he : e.HasCode K rules ⟨sp, none⟩ s first)
    (hes : ElementCodes K rules es (sp + 1) (e.bind (sp + 1) s) cs) :
    ElementCodes K rules (e :: es) sp s (first :: cs) := by
  constructor
  case length_eq =>
    rw [List.length_cons, List.length_cons, hes.length_eq]
  case get =>
    intro i d c hd hc
    cases i with
    | zero =>
      obtain rfl := Option.some.inj hd
      obtain rfl := Option.some.inj hc
      simpa [Scope.after] using he
    | succ i =>
      have h := hes.get (i := i) hd hc
      have hi : sp + 1 + (i : ℤ) = sp + (i + 1 : ℕ) := by omega
      rw [hi] at h
      exact h

theorem ElementCodes.shape {cs : List Code} (h : ElementCodes K rules es sp s cs) {c : Code}
    (hc : c ∈ cs) : ∃ e ctx s, Expr.Shape K rules e ctx s c := by
  obtain ⟨i, hi, rfl⟩ := List.getElem_of_mem hc
  have hlen := h.length_eq
  exact ⟨_, _, _, (h.get (List.getElem?_eq_getElem (hlen ▸ hi)) (List.getElem?_eq_getElem hi)).shape⟩

/-- The compiler puts the code of a sequence together from the codes of its elements. -/
theorem yields_assembled (failed : UInt32) (es : List Expr) (n : ℕ) (ctx : Context) (s : Scope) :
    Yields K (compileElements rules failed es n ctx s) fun c => ∃ cs last,
      ElementCodes K rules es ctx.sp s cs ∧ Assembled failed last cs n c ∧
      CollectCode K (n + es.length) (ctx.sp + es.length) (Scope.after ctx.sp es s) ctx.action last := by
  induction es generalizing n ctx s with
  | nil =>
    rw [compileElements]
    refine (yields_collect _ _ _).mono fun c hc => ⟨[], c, ⟨rfl, ?_⟩, .nil, ?_⟩
    · intro i e c he
      cases he
    · simpa [Scope.after] using hc
  | cons e es ih =>
    rw [compileElements]
    refine (e.yields_code _ _).bind fun first => (ih (n + 1) _ _).bind fun others => ?_
    refine (yields_dropValues n).bind fun drop => (yields_branch _ _ _).bind fun rest => ?_
    refine .pure fun hr hd ho he => ?_
    obtain ⟨cs, last, hcs, ho, hlast⟩ := ho
    have hpush : ctx.push 0 = ⟨ctx.sp, none⟩ := by rw [Context.push, Int.add_zero]
    rw [hpush] at he
    refine ⟨first :: cs, last, hcs.cons he, .cons ho hd hr, ?_⟩
    have hn : n + 1 + es.length = n + (e :: es).length := by
      rw [List.length_cons]
      omega
    have hsp : (ctx.step 1).sp + es.length = ctx.sp + (e :: es).length := by
      rw [Context.step, List.length_cons]
      push_cast
      omega
    rw [hn, hsp] at hlast
    exact hlast

theorem yields_sequence (es : List Expr) (ctx : Context) (s : Scope) :
    Yields K ((Expr.sequence es).compile rules ctx s) fun c => ∃ failed body cs last,
      c = Code.seq [.pushPos] ++ body ∧ Numbers K failed .failed ∧
      ElementCodes K rules es (ctx.sp + 1) s cs ∧ Assembled failed last cs 0 body ∧
      CollectCode K es.length (ctx.sp + 1 + es.length) (Scope.after (ctx.sp + 1) es s) ctx.action
        last := by
  rw [Expr.compile]
  refine (yields_intern _).bind fun failed => (yields_assembled failed es 0 _ s).bind fun body => ?_
  refine .pure fun hb hF => ?_
  obtain ⟨cs, last, hcs, hb, hlast⟩ := hb
  rw [Nat.zero_add] at hlast
  exact ⟨failed, body, cs, last, rfl, hF, hcs, hb, hlast⟩

theorem Expr.yields_named (name : String) (e : Expr) (ctx : Context) (s : Scope) :
    Yields K ((Expr.named name e).compile rules ctx s) fun c => ∃ expected inner report,
      c = Code.seq [.silenceOn] ++ inner ++ Code.seq [.silenceOff] ++ report ∧
      Numbers K expected (.expectation (.other name)) ∧ e.HasCode K rules ctx s inner ∧
      Code.branch (Test.words .isFailed) (Code.seq [.pop, .fail expected]) [] = .ok report := by
  rw [Expr.compile]
  refine (yields_intern _).bind fun expected => (e.yields_code _ _).bind fun inner => ?_
  refine (yields_branch _ _ _).bind fun report => ?_
  exact .pure fun hr he hx => ⟨expected, inner, report, rfl, hx, he, hr⟩

theorem Expr.yields_action {code : String} (hl : e.hasElements = false) (ctx : Context)
    (s : Scope) : Yields K ((Expr.action e code).compile rules ctx s) fun c =>
      ∃ f inner call answer, c = Code.seq [.pushPos] ++ inner ++ answer ++ Code.seq [.nip] ∧
      Numbers K f (.function ⟨Labels.names (e.bind (ctx.sp + 2) []), code⟩) ∧
      e.HasCode K rules (ctx.push 1) [] inner ∧
      Code.call f 1 (e.bind (ctx.sp + 2) []) (ctx.sp + 2) = .ok call ∧
      Code.branch (Test.words .isMatched) (Code.seq [.reportSaved 1] ++ call) [] = .ok answer := by
  rw [Expr.compile, hl, if_neg Bool.false_ne_true]
  refine (e.yields_code _ _).bind fun inner => (yields_function _ _).bind fun f => ?_
  refine (yields_lift _).bind fun call => (yields_branch _ _ _).bind fun answer => ?_
  exact .pure fun ha hc hf he => ⟨f, inner, call, answer, rfl, hf, he, hc, ha⟩

/-! Parts that see no labels. -/

theorem Code.branch_infix {test : Code} (h : Code.branch test yes no = .ok br) :
    yes <:+: br ∧ no <:+: br := by
  obtain ⟨m, n, -, -, rfl⟩ := Code.branch_words h
  exact ⟨⟨test ++ [m, n], no, by simp⟩, ⟨test ++ m :: n :: yes, [], by simp⟩⟩

theorem Code.loop_infix {test body lp : Code} (h : Code.loop test body = .ok lp) : body <:+: lp := by
  obtain ⟨n, -, rfl⟩ := Code.loop_words h
  exact ⟨test ++ [n], [], by simp⟩

theorem Expr.ClosedIn.mono {c' : Code} (h : e.ClosedIn K rules c) (hc : c <:+: c') :
    e.ClosedIn K rules c' := by
  obtain ⟨sp, c₀, he, h₀⟩ := h
  exact ⟨sp, c₀, he, h₀.trans hc⟩

theorem Expr.yields_closed (e : Expr) (ctx : Context) (n : ℤ) :
    Yields K (e.compile rules (ctx.push n) []) (e.ClosedIn K rules) :=
  (e.yields_code _ _).mono fun c hc => ⟨_, c, hc, List.infix_rfl⟩

theorem yields_predicate (negated : Bool) (undefined failed : UInt32) (operand : Code) :
    Yields K (predicate negated undefined failed operand) (operand <:+: ·) := by
  unfold predicate
  split <;>
  · refine (yields_branch _ _ _).bind fun answer => .pure fun _ => ?_
    simp only [List.append_assoc]
    exact List.infix_append' _ _ _

theorem yields_bounded (empty failed min max : UInt32) (first next : Code) :
    Yields K (bounded empty failed min max first next) fun c => first <:+: c ∧ next <:+: c := by
  refine (yields_branch _ _ _).bind fun more => (yields_loop _).bind fun rounds => ?_
  refine (yields_branch _ _ _).bind fun enough => .pure fun _ hr hm => ?_
  simp only [List.append_assoc]
  refine ⟨List.infix_append' _ _ _, ?_⟩
  have hbody := List.suffix_append (Code.seq [.append, .push max]) more
  have hrounds := ((Code.branch_infix hm).2.trans hbody.isInfix).trans (Code.loop_infix hr)
  refine hrounds.trans ?_
  rw [← List.append_assoc]
  exact List.infix_append' _ _ _

theorem yields_delimited (failed : UInt32) (delimiter operand : Code) :
    Yields K (delimited failed delimiter operand) (delimiter <:+: ·) := by
  refine (yields_branch _ _ _).bind fun back => (yields_branch _ _ _).bind fun next => ?_
  refine .pure fun _ _ => ?_
  rw [List.append_assoc]
  exact List.infix_append' _ _ _

theorem yields_choice_parts (es : List Expr) (ctx : Context) :
    Yields K (compileChoice rules es ctx) fun c => ∀ d ∈ es, d.ClosedIn K rules c := by
  induction es with
  | nil =>
    rw [compileChoice]
    refine (yields_intern _).bind fun failed => .pure fun _ d hd => ?_
    cases hd
  | cons e es ih =>
    cases es with
    | nil =>
      rw [compileChoice]
      refine (e.yields_closed ctx 0).mono fun c hc d hd => ?_
      obtain rfl := List.mem_singleton.mp hd
      exact hc
    | cons e' es =>
      rw [compileChoice]
      refine (e.yields_closed ctx 0).bind fun first => ih.bind fun others => ?_
      refine (yields_branch _ _ _).bind fun rest => .pure fun hr ho he d hd => ?_
      rcases List.mem_cons.mp hd with rfl | hd
      · exact he.mono (List.prefix_append _ _).isInfix
      · have hothers := (List.suffix_append (Code.seq [.pop]) others).isInfix
        have hrest := hothers.trans (Code.branch_infix hr).1
        exact (ho d hd).mono (hrest.trans (List.suffix_append _ _).isInfix)

theorem yields_next_parts (failed : UInt32) (operand : Code) (del : Option Expr) (ctx : Context)
    (n : ℤ) : Yields K (compileNext rules failed operand del (ctx.push n)) fun c =>
      ∀ d ∈ del.toList, d.ClosedIn K rules c := by
  cases del with
  | none =>
    rw [compileNext]
    refine .pure fun d hd => ?_
    cases hd
  | some e =>
    rw [compileNext]
    refine (e.yields_closed ctx n).bind fun delimiter => ?_
    refine (yields_delimited _ _ _).mono fun c hc he d hd => ?_
    obtain rfl := List.mem_singleton.mp hd
    exact he.mono hc

/-- An operand that the rest of a compilation puts into its code. -/
theorem Expr.yields_operand {m : Code → Compile Code} (e : Expr) (ctx : Context) (n : ℤ)
    (hm : ∀ inner, Yields K (m inner) (inner <:+: ·)) :
    Yields K (e.compile rules (ctx.push n) [] >>= m) fun c => ∀ d ∈ [e], d.ClosedIn K rules c := by
  refine (e.yields_closed ctx n).bind fun inner => (hm inner).mono fun c hc he d hd => ?_
  obtain rfl := List.mem_singleton.mp hd
  exact he.mono hc

/-- Where labels do not reach the parts of an expression, the code of a part has none in scope. -/
theorem Expr.yields_parts (e : Expr) (he : e.isScoped = false) (ctx : Context) (s : Scope) :
    Yields K (e.compile rules ctx s) fun c => ∀ d ∈ e.children, d.ClosedIn K rules c := by
  cases e with
  | named | sequence => cases he
  | guard | guardNot | rule | literal | charClass | any =>
    exact (yields_code _ ctx s).mono fun c _ d hd => by cases hd
  | choice es =>
    rw [compile]
    exact yields_choice_parts es ctx
  | labeled label e =>
    rw [compile]
    refine (e.yields_closed ctx 0).mono fun c hc d hd => ?_
    obtain rfl := List.mem_singleton.mp hd
    exact hc
  | action e code =>
    change e.hasElements = false at he
    rw [compile, he, if_neg Bool.false_ne_true]
    refine e.yields_operand ctx 1 fun inner => (yields_function _ _).bind fun f => ?_
    refine (yields_lift _).bind fun call => (yields_branch _ _ _).bind fun answer => ?_
    refine .pure fun _ _ _ => ?_
    simp only [List.append_assoc]
    exact List.infix_append' _ _ _
  | text e =>
    rw [compile]
    refine e.yields_operand ctx 1 fun inner => (yields_branch _ _ _).bind fun cut => ?_
    refine .pure fun _ => ?_
    simp only [List.append_assoc]
    exact List.infix_append' _ _ _
  | followedBy e | notFollowedBy e =>
    rw [compile]
    refine (yields_intern _).bind fun undefined => (yields_intern _).bind fun failed => ?_
    exact (e.yields_operand ctx 1 fun inner => yields_predicate _ _ _ inner).mono fun c hc _ _ => hc
  | optional e =>
    rw [compile]
    refine (yields_intern _).bind fun null => ?_
    refine (e.yields_operand ctx 0 fun inner => ?_).mono fun c hc _ => hc
    refine (yields_branch _ _ _).bind fun other => .pure fun _ => ?_
    exact (List.prefix_append _ _).isInfix
  | zeroOrMore e =>
    rw [compile]
    refine (yields_intern _).bind fun empty => ?_
    refine (e.yields_operand ctx 1 fun inner => ?_).mono fun c hc _ => hc
    refine (yields_loop _).bind fun more => .pure fun _ => ?_
    simp only [List.append_assoc]
    exact List.infix_append' _ _ _
  | oneOrMore e =>
    rw [compile]
    refine (yields_intern _).bind fun empty => (yields_intern _).bind fun failed => ?_
    refine (e.yields_operand ctx 1 fun inner => ?_).mono fun c hc _ _ => hc
    refine (yields_loop _).bind fun more => (yields_branch _ _ _).bind fun rest => ?_
    refine .pure fun _ _ => ?_
    rw [List.append_assoc]
    exact List.infix_append' _ _ _
  | bounded e min max del =>
    -- the operand is part of the first attempt, the delimiter of the later ones
    rw [compile]
    refine (yields_intern _).bind fun empty => (yields_intern _).bind fun failed => ?_
    refine (e.yields_closed ctx 1).bind fun first => ?_
    refine (yields_next_parts failed first del ctx 2).bind fun next => ?_
    refine (yields_intern _).bind fun least => (yields_intern _).bind fun most => ?_
    refine (yields_bounded _ _ _ _ _ _).mono fun c hc _ _ hn hf _ _ d hd => ?_
    rcases List.mem_cons.mp hd with rfl | hd
    · exact hf.mono hc.1
    · exact (hn d hd).mono hc.2

end PegMachine
