import PegMachine.Proofs.Compile.Yields
import PegMachine.Proofs.Grammar.Induction

/-! The code that an expression has in a finished program, without the pool that it was compiled
with: a relation with one rule for each way in which code is made. -/
namespace PegMachine

inductive LiteralCode (K : List Constant) (value : String) : Bool → Code → Prop
  | empty {ignoreCase : Bool} {text : UInt32} (hv : value.isEmpty = true)
      (ht : Numbers K text (.string "")) :
      LiteralCode K value ignoreCase (Code.seq [.push text])
  | folded {text expected n : UInt32} {c : Code} (hv : value.isEmpty = false)
      (ht : Numbers K text (.string (Text.lower value)))
      (hx : Numbers K expected (.expectation (.ofLiteral value))) (hn : n.toNat = value.length)
      (hc : Code.branch (Test.words (.folded text)) (Code.seq [.acceptN n])
        (Code.seq [.fail expected]) = .ok c) :
      LiteralCode K value true c
  | exact {text expected : UInt32} {c : Code} (hv : value.isEmpty = false)
      (ht : Numbers K text (.string value))
      (hx : Numbers K expected (.expectation (.ofLiteral value)))
      (hc : Code.branch (Test.words (.string text)) (Code.seq [.acceptString text])
        (Code.seq [.fail expected]) = .ok c) :
      LiteralCode K value false c

inductive GuardCode (K : List Constant) (negated : Bool) (code : String) (ctx : Context)
    (s : Scope) : Code → Prop
  | intro {f undefined failed : UInt32} {call answer : Code}
      (hf : Numbers K f (.function ⟨s.names, code⟩)) (hu : Numbers K undefined .undefined)
      (hd : Numbers K failed .failed) (hc : Code.call f 0 s ctx.sp = .ok call)
      (ha : Code.branch (Test.words .isTrue)
        (Code.seq [.pop, .push (if negated then failed else undefined)])
        (Code.seq [.pop, .push (if negated then undefined else failed)]) = .ok answer) :
      GuardCode K negated code ctx s (Code.seq [.reportHere] ++ call ++ answer)

inductive CollectCode (K : List Constant) (n : ℕ) (sp : ℤ) (s : Scope) :
    Option String → Code → Prop
  | array {count : UInt32} (hn : count.toNat = n) :
      CollectCode K n sp s none (Code.seq [.wrap count, .nip])
  | action {code : String} {count f : UInt32} {call : Code} (hn : count.toNat = n)
      (hf : Numbers K f (.function ⟨s.names, code⟩)) (hc : Code.call f n s sp = .ok call) :
      CollectCode K n sp s (some code) (Code.seq [.reportSaved count] ++ call ++ Code.seq [.nip])

inductive DropCode : ℕ → Code → Prop
  | one : DropCode 1 (Code.seq [.pop])
  | many {n : ℕ} {k : UInt32} (hk : k.toNat = n) : DropCode n (Code.seq [.popN k])

mutual

/-- `Expr.Shape K rules e ctx s c`: the code `c` of `e` in a program with constants `K`. -/
inductive Expr.Shape (K : List Constant) (rules : String → Option ℕ) :
    Expr → Context → Scope → Code → Prop
  | named {name : String} {e : Expr} {ctx : Context} {s : Scope} {expected : UInt32}
      {inner report : Code} (hx : Numbers K expected (.expectation (.other name)))
      (he : e.Shape K rules ctx s inner)
      (hr : Code.branch (Test.words .isFailed) (Code.seq [.pop, .fail expected]) [] = .ok report) :
      Expr.Shape K rules (.named name e) ctx s
        (Code.seq [.silenceOn] ++ inner ++ Code.seq [.silenceOff] ++ report)
  | choice {es : List Expr} {ctx : Context} {s : Scope} {c : Code}
      (hc : ChoiceShape K rules es ctx c) : Expr.Shape K rules (.choice es) ctx s c
  | actionOfElements {e : Expr} {code : String} {ctx : Context} {s : Scope} {c : Code}
      (hl : e.hasElements = true) (he : e.Shape K rules ((ctx.push 0).withAction code) [] c) :
      Expr.Shape K rules (.action e code) ctx s c
  | action {e : Expr} {code : String} {ctx : Context} {s : Scope} {f : UInt32}
      {inner call answer : Code} (hl : e.hasElements = false)
      (he : e.Shape K rules (ctx.push 1) [] inner)
      (hf : Numbers K f (.function ⟨Labels.names (e.bind (ctx.sp + 2) []), code⟩))
      (hc : Code.call f 1 (e.bind (ctx.sp + 2) []) (ctx.sp + 2) = .ok call)
      (ha : Code.branch (Test.words .isMatched) (Code.seq [.reportSaved 1] ++ call) [] =
        .ok answer) :
      Expr.Shape K rules (.action e code) ctx s
        (Code.seq [.pushPos] ++ inner ++ answer ++ Code.seq [.nip])
  | sequence {es : List Expr} {ctx : Context} {s : Scope} {failed : UInt32} {body : Code}
      (hd : Numbers K failed .failed)
      (hb : ElementsShape K rules failed es 0 (ctx.step 1) s body) :
      Expr.Shape K rules (.sequence es) ctx s (Code.seq [.pushPos] ++ body)
  | labeled {label : String} {e : Expr} {ctx : Context} {s : Scope} {c : Code}
      (he : e.Shape K rules (ctx.push 0) [] c) : Expr.Shape K rules (.labeled label e) ctx s c
  | text {e : Expr} {ctx : Context} {s : Scope} {inner cut : Code}
      (he : e.Shape K rules (ctx.push 1) [] inner)
      (hc : Code.branch (Test.words .isMatched) (Code.seq [.text]) [] = .ok cut) :
      Expr.Shape K rules (.text e) ctx s
        (Code.seq [.pushPos] ++ inner ++ cut ++ Code.seq [.nip])
  | followedBy {e : Expr} {ctx : Context} {s : Scope} {undefined failed : UInt32}
      {inner answer : Code} (hu : Numbers K undefined .undefined) (hd : Numbers K failed .failed)
      (he : e.Shape K rules (ctx.push 1) [] inner)
      (ha : Code.branch (Test.words .isMatched) (Code.seq [.pop, .popPos, .push undefined])
        (Code.seq [.pop, .pop, .push failed]) = .ok answer) :
      Expr.Shape K rules (.followedBy e) ctx s
        (Code.seq [.pushPos, .silenceOn] ++ inner ++ Code.seq [.silenceOff] ++ answer)
  | notFollowedBy {e : Expr} {ctx : Context} {s : Scope} {undefined failed : UInt32}
      {inner answer : Code} (hu : Numbers K undefined .undefined) (hd : Numbers K failed .failed)
      (he : e.Shape K rules (ctx.push 1) [] inner)
      (ha : Code.branch (Test.words .isFailed) (Code.seq [.pop, .pop, .push undefined])
        (Code.seq [.pop, .popPos, .push failed]) = .ok answer) :
      Expr.Shape K rules (.notFollowedBy e) ctx s
        (Code.seq [.pushPos, .silenceOn] ++ inner ++ Code.seq [.silenceOff] ++ answer)
  | guard {code : String} {ctx : Context} {s : Scope} {c : Code}
      (hc : GuardCode K false code ctx s c) : Expr.Shape K rules (.guard code) ctx s c
  | guardNot {code : String} {ctx : Context} {s : Scope} {c : Code}
      (hc : GuardCode K true code ctx s c) : Expr.Shape K rules (.guardNot code) ctx s c
  | optional {e : Expr} {ctx : Context} {s : Scope} {null : UInt32} {inner other : Code}
      (hn : Numbers K null .null) (he : e.Shape K rules (ctx.push 0) [] inner)
      (ho : Code.branch (Test.words .isFailed) (Code.seq [.pop, .push null]) [] = .ok other) :
      Expr.Shape K rules (.optional e) ctx s (inner ++ other)
  | zeroOrMore {e : Expr} {ctx : Context} {s : Scope} {empty : UInt32} {inner more : Code}
      (hy : Numbers K empty .emptyArray) (he : e.Shape K rules (ctx.push 1) [] inner)
      (hm : Code.loop (Code.op .whileMatched) (Code.seq [.append] ++ inner) = .ok more) :
      Expr.Shape K rules (.zeroOrMore e) ctx s
        (Code.seq [.push empty] ++ inner ++ more ++ Code.seq [.pop])
  | oneOrMore {e : Expr} {ctx : Context} {s : Scope} {empty failed : UInt32}
      {inner more rest : Code} (hy : Numbers K empty .emptyArray) (hd : Numbers K failed .failed)
      (he : e.Shape K rules (ctx.push 1) [] inner)
      (hm : Code.loop (Code.op .whileMatched) (Code.seq [.append] ++ inner) = .ok more)
      (hr : Code.branch (Test.words .isMatched) (more ++ Code.seq [.pop])
        (Code.seq [.pop, .pop, .push failed]) = .ok rest) :
      Expr.Shape K rules (.oneOrMore e) ctx s (Code.seq [.push empty] ++ inner ++ rest)
  | bounded {e : Expr} {min max : Option UInt32} {d : Option Expr} {ctx : Context} {s : Scope}
      {empty failed least most : UInt32} {first next more rounds enough : Code}
      (hy : Numbers K empty .emptyArray) (hd : Numbers K failed .failed)
      (hl : Numbers K least (.bound min)) (hg : Numbers K most (.bound max))
      (he : e.Shape K rules (ctx.push 1) [] first)
      (hn : NextShape K rules failed first d (ctx.push 2) next)
      (hm : Code.branch (Test.words .isFull) (Code.seq [.push failed]) next = .ok more)
      (hr : Code.loop (Code.op .whileMatched) (Code.seq [.append, .push most] ++ more) = .ok rounds)
      (ho : Code.branch (Test.words .isShort) (Code.seq [.pop, .push failed]) [] = .ok enough) :
      Expr.Shape K rules (.bounded e min max d) ctx s
        (Code.seq [.push empty] ++ first ++ rounds ++ Code.seq [.pop, .push least] ++ enough)
  | rule {name : String} {ctx : Context} {s : Scope} {i : ℕ} (hi : rules name = some i) :
      Expr.Shape K rules (.rule name) ctx s (Code.seq [.rule (UInt32.ofNat i)])
  | literal {value : String} {ignoreCase : Bool} {ctx : Context} {s : Scope} {c : Code}
      (hc : LiteralCode K value ignoreCase c) :
      Expr.Shape K rules (.literal value ignoreCase) ctx s c
  | charClass {k : CharClass} {text : String} {ctx : Context} {s : Scope}
      {members expected : UInt32} {c : Code}
      (hm : Numbers K members
        (.charClass { k with ignoreCase := k.ignoreCase && !k.parts.isEmpty }))
      (hx : Numbers K expected (.expectation (.ofClass text)))
      (hc : Code.branch (Test.words (.charClass members)) (Code.seq [.acceptN 1])
        (Code.seq [.fail expected]) = .ok c) :
      Expr.Shape K rules (.charClass k text) ctx s c
  | any {ctx : Context} {s : Scope} {expected : UInt32} {c : Code}
      (hx : Numbers K expected (.expectation .anyChar))
      (hc : Code.branch (Test.words .any) (Code.seq [.acceptN 1])
        (Code.seq [.fail expected]) = .ok c) : Expr.Shape K rules .any ctx s c

inductive ChoiceShape (K : List Constant) (rules : String → Option ℕ) :
    List Expr → Context → Code → Prop
  | nil {ctx : Context} {failed : UInt32} (hd : Numbers K failed .failed) :
      ChoiceShape K rules [] ctx (Code.seq [.push failed])
  | last {e : Expr} {ctx : Context} {c : Code} (he : e.Shape K rules (ctx.push 0) [] c) :
      ChoiceShape K rules [e] ctx c
  | cons {e e' : Expr} {es : List Expr} {ctx : Context} {first others rest : Code}
      (he : e.Shape K rules (ctx.push 0) [] first)
      (ho : ChoiceShape K rules (e' :: es) ctx others)
      (hr : Code.branch (Test.words .isFailed) (Code.seq [.pop] ++ others) [] = .ok rest) :
      ChoiceShape K rules (e :: e' :: es) ctx (first ++ rest)

inductive ElementsShape (K : List Constant) (rules : String → Option ℕ) :
    UInt32 → List Expr → ℕ → Context → Scope → Code → Prop
  | nil {failed : UInt32} {n : ℕ} {ctx : Context} {s : Scope} {c : Code}
      (hc : CollectCode K n ctx.sp s ctx.action c) :
      ElementsShape K rules failed [] n ctx s c
  | cons {failed : UInt32} {e : Expr} {es : List Expr} {n : ℕ} {ctx : Context} {s : Scope}
      {first others drop rest : Code} (he : e.Shape K rules (ctx.push 0) s first)
      (ho : ElementsShape K rules failed es (n + 1) (ctx.step 1) (e.bind (ctx.sp + 1) s) others)
      (hd : DropCode (n + 1) drop)
      (hr : Code.branch (Test.words .isMatched) others (drop ++ Code.seq [.popPos, .push failed]) =
        .ok rest) :
      ElementsShape K rules failed (e :: es) n ctx s (first ++ rest)

inductive NextShape (K : List Constant) (rules : String → Option ℕ) :
    UInt32 → Code → Option Expr → Context → Code → Prop
  | none {failed : UInt32} {operand : Code} {ctx : Context} :
      NextShape K rules failed operand none ctx operand
  | some {failed : UInt32} {operand : Code} {d : Expr} {ctx : Context}
      {delimiter back next : Code} (hd : d.Shape K rules ctx [] delimiter)
      (hb : Code.branch (Test.words .isFailed) (Code.seq [.pop, .popPos, .push failed])
        (Code.seq [.nip]) = .ok back)
      (hn : Code.branch (Test.words .isMatched) (Code.seq [.pop] ++ operand ++ back)
        (Code.seq [.nip]) = .ok next) :
      NextShape K rules failed operand (some d) ctx (Code.seq [.pushPos] ++ delimiter ++ next)

end

open Compile

variable {K : List Constant} {rules : String → Option ℕ}

theorem yields_literal (value : String) (ignoreCase : Bool) :
    Yields K (Compile.literal value ignoreCase) (LiteralCode K value ignoreCase) := by
  unfold Compile.literal
  split
  · next hv =>
    refine (yields_intern _).bind fun text => ?_
    exact .pure fun ht => .empty hv ht
  · next hv =>
    refine (yields_intern _).bind fun text => ?_
    refine (yields_intern _).bind fun expected => ?_
    cases ignoreCase with
    | true =>
      refine (yields_lift _).bind fun n => ?_
      refine (yields_branch _ _ _).mono fun c hc hn hx ht => ?_
      exact .folded (by simpa using hv) ht hx (operand_toNat hn) hc
    | false =>
      refine (yields_branch _ _ _).mono fun c hc hx ht => ?_
      exact .exact (by simpa using hv) ht hx hc

theorem yields_guard (negated : Bool) (code : String) (ctx : Context) (s : Scope) :
    Yields K (Compile.guard negated code ctx s) (GuardCode K negated code ctx s) := by
  refine (yields_function _ _).bind fun f => ?_
  refine (yields_intern _).bind fun undefined => ?_
  refine (yields_intern _).bind fun failed => ?_
  refine (yields_lift _).bind fun call => ?_
  refine (yields_branch _ _ _).bind fun answer => ?_
  exact .pure fun ha hc hd hu hf => .intro hf hu hd hc ha

theorem yields_collect (n : ℕ) (ctx : Context) (s : Scope) :
    Yields K (collect n ctx s) (CollectCode K n ctx.sp s ctx.action) := by
  refine (yields_lift _).bind fun count => ?_
  obtain ⟨sp, action⟩ := ctx
  cases action with
  | none => exact .pure fun hn => .array (operand_toNat hn)
  | some code =>
    refine (yields_function _ _).bind fun f => ?_
    refine (yields_lift _).bind fun call => ?_
    exact .pure fun hc hf hn => .action (operand_toNat hn) hf hc

theorem yields_dropValues (n : ℕ) : Yields K (dropValues (n + 1)) (DropCode (n + 1)) := by
  unfold dropValues
  split
  · refine (yields_lift _).bind fun k => ?_
    exact .pure fun hk => .many (operand_toNat hk)
  · next hn =>
    obtain rfl : n = 0 := by omega
    exact .pure .one

theorem yields_choice {es : List Expr}
    (ih : ∀ e ∈ es, ∀ ctx s, Yields K (e.compile rules ctx s) (e.Shape K rules ctx s))
    (ctx : Context) : Yields K (compileChoice rules es ctx) (ChoiceShape K rules es ctx) := by
  induction es with
  | nil =>
    rw [compileChoice]
    refine (yields_intern _).bind fun failed => ?_
    exact .pure fun hd => .nil hd
  | cons e es ihs =>
    have he := ih e List.mem_cons_self (ctx.push 0) []
    cases es with
    | nil =>
      rw [compileChoice]
      exact he.mono fun c hc => .last hc
    | cons e' es =>
      rw [compileChoice]
      refine he.bind fun first => ?_
      refine (ihs fun d hd => ih d (List.mem_cons_of_mem _ hd)).bind fun others => ?_
      refine (yields_branch _ _ _).bind fun rest => ?_
      exact .pure fun hr ho he => .cons he ho hr

theorem yields_elements {es : List Expr}
    (ih : ∀ e ∈ es, ∀ ctx s, Yields K (e.compile rules ctx s) (e.Shape K rules ctx s))
    (failed : UInt32) (n : ℕ) (ctx : Context) (s : Scope) :
    Yields K (compileElements rules failed es n ctx s)
      (ElementsShape K rules failed es n ctx s) := by
  induction es generalizing n ctx s with
  | nil =>
    rw [compileElements]
    exact (yields_collect _ _ _).mono fun c hc => .nil hc
  | cons e es ihs =>
    rw [compileElements]
    refine (ih e List.mem_cons_self _ _).bind fun first => ?_
    refine (ihs (fun d hd => ih d (List.mem_cons_of_mem _ hd)) _ _ _).bind fun others => ?_
    refine (yields_dropValues n).bind fun drop => ?_
    refine (yields_branch _ _ _).bind fun rest => ?_
    exact .pure fun hr hd ho he => .cons he ho hd hr

theorem yields_next {d : Option Expr}
    (ih : ∀ e ∈ d, ∀ ctx s, Yields K (e.compile rules ctx s) (e.Shape K rules ctx s))
    (failed : UInt32) (operand : Code) (ctx : Context) :
    Yields K (compileNext rules failed operand d ctx)
      (NextShape K rules failed operand d ctx) := by
  cases d with
  | none =>
    rw [compileNext]
    exact .pure .none
  | some d =>
    rw [compileNext]
    refine (ih d rfl _ _).bind fun delimiter => ?_
    refine (yields_branch _ _ _).bind fun back => ?_
    refine (yields_branch _ _ _).bind fun next => ?_
    exact .pure fun hn hb hd => .some hd hb hn

/-- The compiler makes the code that an expression has. -/
theorem Expr.yields_shape (e : Expr) (ctx : Context) (s : Scope) :
    Yields K (e.compile rules ctx s) (e.Shape K rules ctx s) := by
  induction e generalizing ctx s with
  | named name e ih =>
    rw [Expr.compile]
    refine (yields_intern _).bind fun expected => ?_
    refine (ih _ _).bind fun inner => ?_
    refine (yields_branch _ _ _).bind fun report => ?_
    exact .pure fun hr he hx => .named hx he hr
  | choice es ih =>
    rw [Expr.compile]
    exact (yields_choice ih ctx).mono fun c hc => .choice hc
  | action e code ih =>
    rw [Expr.compile]
    split
    · next hl => exact (ih _ _).mono fun c hc => .actionOfElements hl hc
    · next hl =>
      refine (ih _ _).bind fun inner => ?_
      refine (yields_function _ _).bind fun f => ?_
      refine (yields_lift _).bind fun call => ?_
      refine (yields_branch _ _ _).bind fun answer => ?_
      exact .pure fun ha hc hf he => .action (by simpa using hl) he hf hc ha
  | sequence es ih =>
    rw [Expr.compile]
    refine (yields_intern _).bind fun failed => ?_
    refine (yields_elements ih _ _ _ _).bind fun body => ?_
    exact .pure fun hb hd => .sequence hd hb
  | labeled label e ih =>
    rw [Expr.compile]
    exact (ih _ _).mono fun c hc => .labeled hc
  | text e ih =>
    rw [Expr.compile]
    refine (ih _ _).bind fun inner => ?_
    refine (yields_branch _ _ _).bind fun cut => ?_
    exact .pure fun hc he => .text he hc
  | followedBy e ih =>
    rw [Expr.compile]
    refine (yields_intern _).bind fun undefined => ?_
    refine (yields_intern _).bind fun failed => ?_
    refine (ih _ _).bind fun inner => ?_
    refine (yields_branch _ _ _).bind fun answer => ?_
    exact .pure fun ha he hd hu => .followedBy hu hd he ha
  | notFollowedBy e ih =>
    rw [Expr.compile]
    refine (yields_intern _).bind fun undefined => ?_
    refine (yields_intern _).bind fun failed => ?_
    refine (ih _ _).bind fun inner => ?_
    refine (yields_branch _ _ _).bind fun answer => ?_
    exact .pure fun ha he hd hu => .notFollowedBy hu hd he ha
  | guard code =>
    rw [Expr.compile]
    exact (yields_guard _ _ _ _).mono fun c hc => .guard hc
  | guardNot code =>
    rw [Expr.compile]
    exact (yields_guard _ _ _ _).mono fun c hc => .guardNot hc
  | optional e ih =>
    rw [Expr.compile]
    refine (yields_intern _).bind fun null => ?_
    refine (ih _ _).bind fun inner => ?_
    refine (yields_branch _ _ _).bind fun other => ?_
    exact .pure fun ho he hn => .optional hn he ho
  | zeroOrMore e ih =>
    rw [Expr.compile]
    refine (yields_intern _).bind fun empty => ?_
    refine (ih _ _).bind fun inner => ?_
    refine (yields_loop _).bind fun more => ?_
    exact .pure fun hm he hy => .zeroOrMore hy he hm
  | oneOrMore e ih =>
    rw [Expr.compile]
    refine (yields_intern _).bind fun empty => ?_
    refine (yields_intern _).bind fun failed => ?_
    refine (ih _ _).bind fun inner => ?_
    refine (yields_loop _).bind fun more => ?_
    refine (yields_branch _ _ _).bind fun rest => ?_
    exact .pure fun hr hm he hd hy => .oneOrMore hy hd he hm hr
  | bounded e min max d ih ihd =>
    rw [Expr.compile]
    refine (yields_intern _).bind fun empty => ?_
    refine (yields_intern _).bind fun failed => ?_
    refine (ih _ _).bind fun first => ?_
    refine (yields_next ihd _ _ _).bind fun next => ?_
    refine (yields_intern _).bind fun least => ?_
    refine (yields_intern _).bind fun most => ?_
    refine (yields_branch _ _ _).bind fun more => ?_
    refine (yields_loop _).bind fun rounds => ?_
    refine (yields_branch _ _ _).bind fun enough => ?_
    exact .pure fun ho hr hm hg hl hn he hd hy => .bounded hy hd hl hg he hn hm hr ho
  | rule name =>
    rw [Expr.compile]
    split
    · next i hi => exact .pure (.rule hi)
    · exact yields_throw _
  | literal value ignoreCase =>
    rw [Expr.compile]
    exact (yields_literal _ _).mono fun c hc => .literal hc
  | charClass k text =>
    rw [Expr.compile]
    refine (yields_intern _).bind fun members => ?_
    refine (yields_intern _).bind fun expected => ?_
    exact (yields_branch _ _ _).mono fun c hc hx hm => .charClass hm hx hc
  | any =>
    rw [Expr.compile]
    refine (yields_intern _).bind fun expected => ?_
    exact (yields_branch _ _ _).mono fun c hc hx => .any hx hc

/-- The compiler, at `ctx` and with the labels `s` in scope, makes `c` of the expression for a program
with constants `K`. -/
def Expr.HasCode (K : List Constant) (rules : String → Option ℕ) (e : Expr) (ctx : Context)
    (s : Scope) (c : Code) : Prop :=
  ∃ p q, e.compile rules ctx s p = .ok (c, q) ∧ q.consts <+: K

/-- What the compiler yields holds of the code. -/
theorem Expr.HasCode.of_yields {e : Expr} {ctx : Context} {s : Scope} {c : Code} {Q : Code → Prop}
    (hc : e.HasCode K rules ctx s c) (hy : Yields K (e.compile rules ctx s) Q) : Q c := by
  obtain ⟨p, q, hc, hq⟩ := hc
  exact (hy p c q hc).2 hq

theorem Expr.HasCode.shape {e : Expr} {ctx : Context} {s : Scope} {c : Code}
    (hc : e.HasCode K rules ctx s c) : e.Shape K rules ctx s c :=
  hc.of_yields (e.yields_shape ctx s)

theorem Expr.yields_code (e : Expr) (ctx : Context) (s : Scope) :
    Yields K (e.compile rules ctx s) (e.HasCode K rules ctx s) := by
  intro p c q hc
  exact ⟨(e.yields_shape (K := K) ctx s p c q hc).1, fun hq => ⟨p, q, hc, hq⟩⟩

end PegMachine
