import PegMachine.Proofs.Semantics.Program

/-! Rules added after those of a grammar. They change neither the code of the rules before them nor the
numbers of the constants: a reference that has found its rule finds no other, even if the name is
defined again, and the pool only grows. -/
namespace PegMachine

variable {α β : Type} {rules rules' : String → Option ℕ} {verify verify' : Bool} {p q : Program}

namespace Compile

/-- What `m` makes, `m'` makes too. -/
def Refines (m m' : Compile α) : Prop := ∀ p x, m p = .ok x → m' p = .ok x

namespace Refines

theorem refl (m : Compile α) : Refines m m := fun _ _ => id

theorem bind {m m' : Compile α} {f f' : α → Compile β} (hm : Refines m m')
    (hf : ∀ a, Refines (f a) (f' a)) : Refines (m >>= f) (m' >>= f') := by
  intro p x hx
  obtain ⟨b, q⟩ := x
  obtain ⟨a, r, ha, hb⟩ := bind_eq_ok.mp hx
  exact bind_eq_ok.mpr ⟨a, r, hm p (a, r) ha, hf a r (b, q) hb⟩

/-- What comes first is the same on both sides. -/
theorem after (m : Compile α) {f f' : α → Compile β} (hf : ∀ a, Refines (f a) (f' a)) :
    Refines (m >>= f) (m >>= f') :=
  (refl m).bind hf

end Refines
end Compile

open Compile

/-- The code of `e` is made with `rules'`, too, where it is made with `rules`. -/
def Expr.Refined (rules rules' : String → Option ℕ) (e : Expr) : Prop :=
  ∀ ctx s, Refines (e.compile rules ctx s) (e.compile rules' ctx s)

theorem refines_choice {es : List Expr} (ih : ∀ e ∈ es, e.Refined rules rules') (ctx : Context) :
    Refines (compileChoice rules es ctx) (compileChoice rules' es ctx) := by
  induction es with
  | nil =>
    rw [compileChoice, compileChoice]
    exact .refl _
  | cons e es ihs =>
    have he := ih e List.mem_cons_self (ctx.push 0) []
    cases es with
    | nil =>
      rw [compileChoice, compileChoice]
      exact he
    | cons e' es =>
      rw [compileChoice, compileChoice]
      have hothers := ihs fun d hd => ih d (List.mem_cons_of_mem _ hd)
      exact he.bind fun first => hothers.bind fun others => .refl _

theorem refines_elements {es : List Expr} (ih : ∀ e ∈ es, e.Refined rules rules') (failed : UInt32)
    (n : ℕ) (ctx : Context) (s : Scope) :
    Refines (compileElements rules failed es n ctx s) (compileElements rules' failed es n ctx s) := by
  induction es generalizing n ctx s with
  | nil =>
    rw [compileElements, compileElements]
    exact .refl _
  | cons e es ihs =>
    rw [compileElements, compileElements]
    have he := ih e List.mem_cons_self (ctx.push 0) s
    have hothers := ihs (fun d hd => ih d (List.mem_cons_of_mem _ hd)) (n + 1) (ctx.step 1)
      (e.bind (ctx.sp + 1) s)
    exact he.bind fun first => hothers.bind fun others => .refl _

theorem refines_next {d : Option Expr} (ih : ∀ e ∈ d, e.Refined rules rules') (failed : UInt32)
    (operand : Code) (ctx : Context) :
    Refines (compileNext rules failed operand d ctx) (compileNext rules' failed operand d ctx) := by
  cases d with
  | none =>
    rw [compileNext, compileNext]
    exact .refl _
  | some d =>
    rw [compileNext, compileNext]
    exact (ih d rfl ctx []).bind fun delimiter => .refl _

/-- More references that find their rules do not change the code of an expression all of whose
references had found theirs. -/
theorem Expr.refined (hr : ∀ name i, rules name = some i → rules' name = some i) (e : Expr) :
    e.Refined rules rules' := by
  induction e with
  | named name e ih =>
    intro ctx s
    rw [Expr.compile, Expr.compile]
    exact .after _ fun expected => (ih ctx s).bind fun inner => .refl _
  | choice es ih =>
    intro ctx s
    rw [Expr.compile, Expr.compile]
    exact refines_choice ih ctx
  | action e code ih =>
    intro ctx s
    rw [Expr.compile, Expr.compile]
    split
    · exact ih _ _
    · exact (ih _ _).bind fun inner => .refl _
  | sequence es ih =>
    intro ctx s
    rw [Expr.compile, Expr.compile]
    exact .after _ fun failed => (refines_elements ih _ _ _ _).bind fun body => .refl _
  | labeled label e ih =>
    intro ctx s
    rw [Expr.compile, Expr.compile]
    exact ih _ _
  | text e ih =>
    intro ctx s
    rw [Expr.compile, Expr.compile]
    exact (ih _ _).bind fun inner => .refl _
  | followedBy e ih | notFollowedBy e ih =>
    intro ctx s
    rw [Expr.compile, Expr.compile]
    exact .after _ fun undefined => .after _ fun failed => (ih _ _).bind fun inner => .refl _
  | optional e ih =>
    intro ctx s
    rw [Expr.compile, Expr.compile]
    exact .after _ fun null => (ih _ _).bind fun inner => .refl _
  | zeroOrMore e ih =>
    intro ctx s
    rw [Expr.compile, Expr.compile]
    exact .after _ fun empty => (ih _ _).bind fun inner => .refl _
  | oneOrMore e ih =>
    intro ctx s
    rw [Expr.compile, Expr.compile]
    exact .after _ fun empty => .after _ fun failed => (ih _ _).bind fun inner => .refl _
  | bounded e min max d ih ihd =>
    intro ctx s
    rw [Expr.compile, Expr.compile]
    refine .after _ fun empty => .after _ fun failed => (ih _ _).bind fun first => ?_
    exact (refines_next ihd failed first _).bind fun next => .refl _
  | rule name =>
    intro ctx s p x hx
    rw [Expr.compile] at hx ⊢
    cases hi : rules name with
    | none =>
      rw [hi] at hx
      cases hx
    | some i =>
      rw [hi] at hx
      rw [hr name i hi]
      exact hx
  | guard | guardNot | literal | charClass | any =>
    intro ctx s
    rw [Expr.compile, Expr.compile]
    exact .refl _

/-- A rule that is checked has the code that it has unchecked. -/
theorem Rule.refines (hr : ∀ name i, rules name = some i → rules' name = some i) (verify : Bool)
    (r : Rule) : Refines (r.compile verify rules) (r.compile false rules') := by
  refine (r.body.refined hr .rule []).bind fun code => ?_
  cases verify with
  | false => exact .refl _
  | true =>
    intro p x hx
    rw [if_pos rfl] at hx
    cases hc : Code.checkRule code with
    | error e =>
      rw [hc] at hx
      cases hx
    | ok u =>
      rw [hc] at hx
      exact hx

theorem refines_rules (hr : ∀ name i, rules name = some i → rules' name = some i) (verify : Bool)
    (rs : List Rule) : Refines (compileRules verify rules rs) (compileRules false rules' rs) := by
  induction rs with
  | nil => exact .refl _
  | cons r rs ih => exact (r.refines hr verify).bind fun c => ih.bind fun cs => .refl _

/-- The rules of the first list are compiled before those of the second. -/
theorem compileRules_append (verify : Bool) (rules : String → Option ℕ) (rs rs' : List Rule) :
    compileRules verify rules (rs ++ rs') = (do
      let cs ← compileRules verify rules rs
      let cs' ← compileRules verify rules rs'
      pure (cs ++ cs')) := by
  induction rs with
  | nil => simp [compileRules]
  | cons r rs ih => simp [compileRules, ih]

namespace Grammar

/-- A grammar with more rules after its own. -/
def append (g : Grammar) (rs : List Rule) : Grammar := ⟨g.rules ++ rs⟩

variable {g : Grammar} {rs : List Rule}

/-- The rule of a name stays the first one. -/
theorem ruleIndex?_append {name : String} {i : ℕ} (h : g.ruleIndex? name = some i) :
    (g.append rs).ruleIndex? name = some i := by
  have happ : (g.append rs).ruleIndex? name = (g.ruleIndex? name).or _ := List.findIdx?_append
  rw [happ, h, Option.some_or]

/-- A program is made of the codes of the rules and of the pool that they leave. -/
theorem generate_eq_ok (h : g.generate verify = .ok p) :
    ∃ pool, compileRules verify g.ruleIndex? g.rules {} = .ok (p.rules, pool) ∧
      p.consts = pool.consts := by
  unfold generate at h
  split at h
  · cases h
  · obtain ⟨⟨cs, pool⟩, hr, h⟩ := except_bind_eq_ok.mp h
    obtain rfl := Except.ok.inj h
    exact ⟨pool, hr, rfl⟩

theorem nodup_consts (h : g.generate verify = .ok p) : p.consts.Nodup := by
  obtain ⟨pool, hr, hc⟩ := generate_eq_ok h
  have hgrows := (yields_rules (K := pool.consts) g.rules {} p.rules pool hr).1
  rw [hc]
  exact hgrows.nodup List.nodup_nil

/-- Rules added to a grammar leave the code of its own rules as it is and number only constants that
have no number yet, whether they define names for the first time or again. No constant is kept twice. -/
theorem generate_append (hp : g.generate verify = .ok p)
    (hq : (g.append rs).generate verify' = .ok q) :
    q.rules.take g.rules.length = p.rules ∧ p.consts <+: q.consts ∧ p.consts.Nodup ∧
      q.consts.Nodup := by
  obtain ⟨pool, hcodes, hconsts⟩ := generate_eq_ok hp
  obtain ⟨pool', hcodes', hconsts'⟩ := generate_eq_ok hq
  have hnames (name : String) (i : ℕ) (hi : g.ruleIndex? name = some i) :
      (g.append rs).ruleIndex? name = some i :=
    ruleIndex?_append hi
  have hcodes := refines_rules hnames verify g.rules {} _ hcodes
  have hcodes' := refines_rules (fun _ _ => id) verify' (g.append rs).rules {} _ hcodes'
  rw [append, compileRules_append] at hcodes'
  obtain ⟨cs, r, hcs, hcodes'⟩ := bind_eq_ok.mp hcodes'
  obtain ⟨⟩ := hcodes.symm.trans hcs
  obtain ⟨cs', r', hcs', hcodes'⟩ := bind_eq_ok.mp hcodes'
  obtain ⟨hrules, rfl⟩ := Prod.mk.inj (Except.ok.inj hcodes')
  refine ⟨?_, ?_, nodup_consts hp, nodup_consts hq⟩
  · rw [← hrules, ← (generate_makes hp).length_eq, List.take_left]
  · rw [hconsts, hconsts']
    exact (yields_rules (K := r'.consts) rs pool cs' r' hcs').1.keeps

/-- The name of a rule is defined again, and a rule after that refers to the first definition. -/
theorem generate_append_again :
    let g : Grammar := ⟨[⟨"list", .zeroOrMore (.rule "letter")⟩, ⟨"letter", .any⟩]⟩
    let rs : List Rule := [⟨"letter", .literal "x" false⟩, ⟨"word", .optional (.rule "letter")⟩]
    let p : Program := ⟨[⟨"list", [0, 0, 25, 1, 14, 3, 6, 25, 1, 2]⟩,
      ⟨"letter", [15, 2, 2, 19, 1, 21, 1]⟩], [.emptyArray, .expectation .anyChar]⟩
    let q : Program := ⟨p.rules ++ [⟨"letter", [16, 2, 2, 2, 20, 2, 21, 3]⟩,
      ⟨"word", [25, 1, 10, 3, 0, 2, 0, 4]⟩],
      p.consts ++ [.string "x", .expectation (.ofLiteral "x"), .null]⟩
    g.generate true = .ok p ∧ (g.append rs).generate true = .ok q ∧
      q.rules.take g.rules.length = p.rules ∧ p.consts <+: q.consts ∧ p.consts.Nodup ∧
      q.consts.Nodup := by
  intro g rs p q
  have hp : g.generate true = .ok p := by decide +kernel
  have hq : (g.append rs).generate true = .ok q := by decide +kernel
  exact ⟨hp, hq, generate_append hp hq⟩

end Grammar
end PegMachine
