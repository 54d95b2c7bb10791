import PegMachine.Compile.Grammar
import PegMachine.Proofs.Semantics.Correct

/-! Each rule of a compiled grammar follows the walk of that rule. -/
namespace PegMachine

variable {σ : Type} {K : List Constant} {rules : String → Option ℕ} {verify : Bool} {g : Grammar}
  {p : Program} {i : ℕ} {name : String}

open Compile

/-- The code of a rule is that of its body, where no labels are in scope. -/
def Rule.HasCode (K : List Constant) (rules : String → Option ℕ) (r : Rule) (c : RuleCode) : Prop :=
  c.name = r.name ∧ r.body.HasCode K rules .rule [] c.code

/-- The code of a rule leaves the value of its body on an empty stack. -/
def Rule.Shape (K : List Constant) (rules : String → Option ℕ) (r : Rule) (c : RuleCode) : Prop :=
  c.name = r.name ∧ r.body.Shape K rules .rule [] c.code

theorem Rule.HasCode.shape {r : Rule} {c : RuleCode} (h : r.HasCode K rules c) : r.Shape K rules c :=
  ⟨h.1, h.2.shape⟩

theorem Rule.yields_code (r : Rule) :
    Yields K (r.compile verify rules) (r.HasCode K rules) := by
  refine (r.body.yields_code .rule []).bind fun code => ?_
  cases verify with
  | false => exact .pure fun h => ⟨rfl, h⟩
  | true =>
    rw [if_pos rfl]
    split
    · exact yields_throw _
    · exact .pure fun h => ⟨rfl, h⟩

theorem yields_rules (rs : List Rule) :
    Yields K (compileRules verify rules rs) (List.Forall₂ (Rule.HasCode K rules) rs) := by
  induction rs with
  | nil => exact .pure .nil
  | cons r rs ih =>
    refine r.yields_code.bind fun c => ih.bind fun cs => ?_
    exact .pure fun hcs hc => .cons hc hcs

/-- `p` is made of the rules of `g`, one for one. There are numbers for all of its constants and
rules. -/
structure Grammar.Makes (g : Grammar) (p : Program) : Prop where
  consts : p.consts.length ≤ UInt32.size
  rules : g.rules.length ≤ UInt32.size
  shapes : List.Forall₂ (Rule.Shape p.consts g.ruleIndex?) g.rules p.rules

namespace Grammar

theorem generate_codes (h : g.generate verify = .ok p) :
    p.consts.length ≤ UInt32.size ∧ g.rules.length ≤ UInt32.size ∧
      List.Forall₂ (Rule.HasCode p.consts g.ruleIndex?) g.rules p.rules := by
  unfold generate at h
  split at h
  · cases h
  · next hn =>
    obtain ⟨⟨cs, pool⟩, hr, h⟩ := except_bind_eq_ok.mp h
    obtain rfl := Except.ok.inj h
    obtain ⟨hgrow, hcodes⟩ := yields_rules (K := pool.consts) g.rules {} cs pool hr
    exact ⟨hgrow.size (Nat.zero_le _), not_lt.mp hn, hcodes List.prefix_rfl⟩

theorem generate_makes (h : g.generate verify = .ok p) : g.Makes p := by
  obtain ⟨hconsts, hrules, hcodes⟩ := generate_codes h
  exact ⟨hconsts, hrules, hcodes.imp fun _ _ hc => hc.shape⟩

theorem ruleIndex?_lt (h : g.ruleIndex? name = some i) : i < g.rules.length :=
  (List.findIdx?_eq_some_iff_getElem.mp h).1

/-- Walks the rule of that name. -/
def ruleWalk (g : Grammar) (env : Walk.Env σ) (fuel depth : ℕ) (name : String) : Walk σ Value :=
  match g.ruleIndex? name with
  | some j => g.walk env fuel depth j
  | none => throw (.fault (.unknownRule name))

theorem walk_succ (env : Walk.Env σ) (fuel depth : ℕ) {r : Rule} (hr : g.rules[i]? = some r) :
    g.walk env fuel (depth + 1) i = r.body.walk env fuel (g.ruleWalk env fuel depth) [] := by
  rw [Grammar.walk, hr]
  rfl

namespace Makes

theorem length_eq (hg : g.Makes p) : p.rules.length = g.rules.length := hg.shapes.length_eq.symm

/-- The rule numbered `i` and its code. -/
theorem get (hg : g.Makes p) (hi : i < g.rules.length) :
    ∃ r c, g.rules[i]? = some r ∧ p.load[i]? = some ⟨c.name, Block.read 0 c.code⟩ ∧
      r.Shape p.consts g.ruleIndex? c := by
  have hp : i < p.rules.length := by
    rw [hg.length_eq]
    exact hi
  refine ⟨g.rules[i], p.rules[i], List.getElem?_eq_getElem hi, ?_, hg.shapes.get hi hp⟩
  rw [Program.load, List.getElem?_map, List.getElem?_eq_getElem hp]
  rfl

/-- A program has its rules by the names that they have in the grammar. -/
theorem ruleIndex?_eq (hg : g.Makes p) (name : String) : p.ruleIndex? name = g.ruleIndex? name := by
  have hnames (rs : List Rule) (cs : List RuleCode)
      (h : List.Forall₂ (Rule.Shape p.consts g.ruleIndex?) rs cs) :
      cs.map (·.name) = rs.map (·.name) := by
    induction h with
    | nil => rfl
    | cons h _ ih => rw [List.map_cons, List.map_cons, h.1, ih]
  have hp : p.ruleIndex? name = (p.rules.map (·.name)).findIdx? (· == name) := by
    rw [List.findIdx?_map]
    rfl
  rw [hp, hnames _ _ hg.shapes, List.findIdx?_map]
  rfl

/-- A number that no rule has. -/
theorem load_eq_none (hg : g.Makes p) (hi : ¬i < g.rules.length) : p.load[i]? = none := by
  apply List.getElem?_eq_none
  rw [Program.load, List.length_map, hg.length_eq]
  exact not_lt.mp hi

/-- The number of a rule fits into a word. -/
theorem toNat_ruleIndex? (hg : g.Makes p) (hi : g.ruleIndex? name = some i) :
    (UInt32.ofNat i).toNat = i := by
  have hlt := ruleIndex?_lt hi
  have hsize := hg.rules
  exact UInt32.toNat_ofNat_of_lt' (by omega)

/-- A rule follows the walk of its body, if the rules that it refers to follow theirs. -/
theorem follows_succ (env : Env σ) (hg : g.Makes env.program) (fuel : ℕ) {d : ℕ} {r : Rule}
    {wrule : String → Walk σ Value}
    (hrule : ∀ name j, g.ruleIndex? name = some j →
      Follows env.host (Run.rule env env.program.load fuel d j) (wrule name) Eq)
    (hr : g.rules[i]? = some r) :
    Follows env.host (Run.rule env env.program.load fuel (d + 1) i)
      (r.body.walk ⟨env.host, env.input⟩ fuel wrule []) Eq := by
  obtain ⟨r', c, hr', hc, hname, hshape⟩ := hg.get (List.getElem?_eq_some_iff.mp hr).1
  obtain rfl := Option.some.inj (hr.symm.trans hr')
  rw [Run.rule, hc]
  let A : Activation σ := ⟨env, fuel, Run.rule env env.program.load fuel d, c.name⟩
  dsimp only
  rw [← bind_pure (r.body.walk _ _ _ _)]
  refine Follows.bind (f := A.exec 0 c.code []) (R := fun S v => S = [v]) ?_ ?_
  · refine r.body.sound (A := A) hg.consts ?_ .rule [] c.code [] [] rfl hshape .nil 0
    intro name j hj
    rw [hg.toNat_ruleIndex? hj]
    exact hrule name j hj
  · intro S v hS
    subst hS
    exact .pure rfl

/-- A rule that may go no deeper meets its limit. -/
theorem follows_zero (env : Env σ) (hg : g.Makes env.program) (fuel : ℕ) (hi : i < g.rules.length)
    (w : Walk σ Value) : Follows env.host (Run.rule env env.program.load fuel 0 i) w Eq := by
  obtain ⟨r, c, hr, hc, hshape⟩ := hg.get hi
  intro s
  rw [Run.rule, hc]
  exact .limit trivial

/-- A rule follows its walk. The walk may go deeper than the limit on the machine lets the rule. -/
theorem follows (env : Env σ) (hg : g.Makes env.program) (fuel : ℕ) {d d' : ℕ} (hd : d ≤ d')
    (hi : i < g.rules.length) :
    Follows env.host (Run.rule env env.program.load fuel d i)
      (g.walk ⟨env.host, env.input⟩ fuel d' i) Eq := by
  induction d generalizing d' i with
  | zero => exact hg.follows_zero env fuel hi _
  | succ d ih =>
    obtain ⟨d', rfl⟩ : ∃ n, d' = n + 1 := ⟨d' - 1, by omega⟩
    have hr := List.getElem?_eq_getElem hi
    rw [walk_succ _ _ _ hr]
    refine hg.follows_succ env fuel (fun name j hj => ?_) hr
    rw [ruleWalk, hj]
    exact ih (by omega) (ruleIndex?_lt hj)

/-- A rule follows some walk for which `Q`, if there are such walks for all numbers of rules, and for
none, and the bodies of the rules make such walks out of others. -/
theorem exists_follows (env : Env σ) (hg : g.Makes env.program) (fuel : ℕ)
    {Q : Option ℕ → Walk σ Value → Prop} (hzero : ∀ j, ∃ w, Q j w)
    (hsucc : ∀ i r wrule, g.rules[i]? = some r → (∀ name, Q (g.ruleIndex? name) (wrule name)) →
      Q (some i) (r.body.walk ⟨env.host, env.input⟩ fuel wrule []))
    (d : ℕ) (hi : i < g.rules.length) :
    ∃ w, Follows env.host (Run.rule env env.program.load fuel d i) w Eq ∧ Q (some i) w := by
  induction d generalizing i with
  | zero =>
    obtain ⟨w, hw⟩ := hzero (some i)
    exact ⟨w, hg.follows_zero env fuel hi w, hw⟩
  | succ d ih =>
    have hnamed : ∀ name, ∃ w, Q (g.ruleIndex? name) w ∧ ∀ j, g.ruleIndex? name = some j →
        Follows env.host (Run.rule env env.program.load fuel d j) w Eq := by
      intro name
      cases hj : g.ruleIndex? name with
      | none =>
        obtain ⟨w, hw⟩ := hzero none
        refine ⟨w, hw, fun j h => ?_⟩
        cases h
      | some j =>
        obtain ⟨w, hw, hQ⟩ := ih (ruleIndex?_lt hj)
        refine ⟨w, hQ, fun j' h => ?_⟩
        obtain rfl := Option.some.inj h
        exact hw
    choose wrule hQ hw using hnamed
    have hr := List.getElem?_eq_getElem hi
    exact ⟨_, hg.follows_succ env fuel hw hr, hsucc i _ wrule hr hQ⟩

variable {m : Machine σ}

/-- What the rules do that the code of a rule refers to. -/
theorem rule_follows (hg : g.Makes m.program) (input : String) (depth : ℕ)
    (hi : g.ruleIndex? name = some i) :
    Follows m.host (Run.rule (m.env input) m.program.load m.fuel depth (UInt32.ofNat i).toNat)
      (g.ruleWalk ⟨m.host, .ofString input⟩ m.fuel depth name) Eq := by
  rw [hg.toNat_ruleIndex? hi, ruleWalk, hi]
  exact hg.follows (m.env input) m.fuel le_rfl (ruleIndex?_lt hi)

/-- In a rule of the program the code of any expression emulates its walk. -/
theorem expr_sound (hg : g.Makes m.program) (input : String) (depth : ℕ) (name : String) (e : Expr) :
    e.Sound (m.activation input depth name) g.ruleIndex?
      (g.ruleWalk ⟨m.host, .ofString input⟩ m.fuel depth) :=
  e.sound hg.consts fun _ _ hi => hg.rule_follows input depth hi

end Makes
end Grammar
end PegMachine
