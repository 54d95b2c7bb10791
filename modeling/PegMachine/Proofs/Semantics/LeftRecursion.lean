import PegMachine.Proofs.Semantics.Agreement

/-! Left recursion: a rule that comes back to itself before anything is read. The machine is stopped
there by one of its limits, for its walk would have no end. -/
namespace PegMachine

variable {σ α β : Type}

/-- The first thing that the expression does is to try the rule of that name. -/
inductive Expr.StartsWith (name : String) : Expr → Prop
  | rule : StartsWith name (.rule name)
  | part {e d : Expr} (hd : e.children.head? = some d) (h : StartsWith name d) : StartsWith name e

namespace Grammar

/-- Rule `i` starts with rule `j`. -/
def StartsWith (g : Grammar) (i j : ℕ) : Prop :=
  ∃ r name, g.rules[i]? = some r ∧ r.body.StartsWith name ∧ g.ruleIndex? name = some j

/-- From start to start, the rule leads to one that leads back to itself. -/
def LeftRecursive (g : Grammar) (i : ℕ) : Prop :=
  ∃ j, Relation.ReflTransGen g.StartsWith i j ∧ Relation.TransGen g.StartsWith j j

variable {g : Grammar} {i : ℕ}

/-- A left-recursive rule starts with another one. -/
theorem LeftRecursive.next (h : g.LeftRecursive i) : ∃ j, g.StartsWith i j ∧ g.LeftRecursive j := by
  obtain ⟨k, hk, hloop⟩ := h
  rcases hk.cases_head with rfl | ⟨j, hj, hjk⟩
  · obtain ⟨j, hj, hji⟩ := Relation.TransGen.head'_iff.mp hloop
    exact ⟨j, hj, i, hji, hloop⟩
  · exact ⟨j, hj, k, hjk, hloop⟩

end Grammar

namespace Walk

variable {x : Stop} {w : Walk σ α}

/-- From whatever state, the walk is stopped so. -/
def Stops (x : Stop) (w : Walk σ α) : Prop := ∀ s, ∃ t, w s = .error x t

namespace Stops

theorem throw (x : Stop) : Stops (α := α) (σ := σ) x (throw x) := fun s => ⟨s, rfl⟩

theorem bind {k : α → Walk σ β} (hw : Stops x w) : Stops x (w >>= k) := by
  intro s
  obtain ⟨t, ht⟩ := hw s
  refine ⟨t, ?_⟩
  change EStateM.bind w k s = _
  rw [EStateM.bind, ht]

theorem place {k : ℕ → Walk σ β} (hk : ∀ p, Stops x (k p)) : Stops x (place >>= k) :=
  fun s => hk s.pos s

theorem silenced {w : Walk σ Value} (hw : Stops x w) : Stops x (silenced w) :=
  fun s => hw.bind { s with silence := s.silence + 1 }

end Stops
end Walk

open Walk

/-- An expression is stopped where the rule is that it starts with. -/
theorem Expr.stops {env : Walk.Env σ} {fuel : ℕ} {wrule : String → Walk σ Value} {x : Stop}
    {name : String} (hname : Stops x (wrule name)) (e : Expr) (h : e.StartsWith name)
    (ls : Labels Value) : Stops x (e.walk env fuel wrule ls) := by
  induction e using Expr.inner_induction generalizing ls with
  | inner e hp hpp =>
    cases h with
    | rule =>
      rw [Expr.walk]
      exact hname
    | @part _ d hd h =>
      have hpart := hp d (List.mem_of_mem_head? hd) h
      cases e with
      | choice es =>
        obtain ⟨es, rfl⟩ := List.head?_eq_some_iff.mp hd
        rw [Expr.walk, walkChoice]
        exact (hpart []).bind
      | sequence es =>
        obtain ⟨es, rfl⟩ := List.head?_eq_some_iff.mp hd
        rw [Expr.walk_sequence, walkElements]
        exact .place fun p => (hpart ls).bind.bind
      | action e code =>
        obtain rfl := Option.some.inj hd
        cases hl : e.hasElements with
        | true =>
          obtain ⟨d, es, rfl⟩ := Expr.eq_sequence hl
          rw [Expr.walk_actionOfElements, walkElements]
          cases h with
          | part hd h =>
            have hfirst := hpp _ List.mem_cons_self _ (List.mem_of_mem_head? hd) h []
            obtain rfl := Option.some.inj hd
            exact .place fun p => hfirst.bind.bind
        | false =>
          rw [Expr.walk_action hl]
          exact .place fun p => (hpart []).bind
      | named name e =>
        obtain rfl := Option.some.inj hd
        rw [Expr.walk]
        exact (hpart ls).silenced.bind
      | followedBy e | notFollowedBy e =>
        obtain rfl := Option.some.inj hd
        rw [Expr.walk]
        exact .place fun p => (hpart []).silenced.bind
      | labeled label e =>
        obtain rfl := Option.some.inj hd
        rw [Expr.walk]
        exact hpart []
      | text e =>
        obtain rfl := Option.some.inj hd
        rw [Expr.walk]
        exact .place fun p => (hpart []).bind
      | optional e | zeroOrMore e | oneOrMore e | bounded e min max d =>
        obtain rfl := Option.some.inj hd
        rw [Expr.walk]
        exact (hpart []).bind
      | guard | guardNot | rule | literal | charClass | any => cases hd

/-- A run that follows a walk into a fault of its own has met a limit before. -/
theorem Matches.atLimit {H : Host σ} {y : EStateM.Result Stop (State σ) Value} {f : Fault}
    {t : Progress σ} (h : Matches H Eq y (.error (.fault f) t)) :
    (Ending.of State.toProgress y).AtLimit := by
  cases h with
  | limit hx => exact hx

namespace Grammar

variable {g : Grammar} {p : Program} {i : ℕ}

theorem LeftRecursive.lt (h : g.LeftRecursive i) : i < g.rules.length := by
  obtain ⟨j, ⟨r, name, hr, -⟩, -⟩ := h.next
  exact (List.getElem?_eq_some_iff.mp hr).1

/-- A left-recursive rule never gets beyond its start, so it follows a walk that is stopped there by
whatever fault one likes. -/
theorem Makes.follows_stops (env : Env σ) (hg : g.Makes env.program) (fuel d : ℕ) (f : Fault)
    (hi : g.LeftRecursive i) :
    ∃ w : Walk σ Value, Follows env.host (Run.rule env env.program.load fuel d i) w Eq ∧
      Stops (.fault f) w := by
  let Q : Option ℕ → Walk σ Value → Prop :=
    fun j w => ∀ i, j = some i → g.LeftRecursive i → Stops (.fault f) w
  have hzero : ∀ j, ∃ w, Q j w := fun j => ⟨throw (.fault f), fun _ _ _ => .throw _⟩
  have hsucc : ∀ i r wrule, g.rules[i]? = some r → (∀ name, Q (g.ruleIndex? name) (wrule name)) →
      Q (some i) (r.body.walk ⟨env.host, env.input⟩ fuel wrule []) := by
    rintro _ r wrule hr hnamed i ⟨⟩ hi
    obtain ⟨j, ⟨r', name, hr', hstart, hj⟩, hleft⟩ := hi.next
    obtain rfl := Option.some.inj (hr.symm.trans hr')
    exact r.body.stops (hnamed name j hj hleft) hstart []
  obtain ⟨w, hw, hstops⟩ := hg.exists_follows env fuel hzero hsucc d hi.lt
  exact ⟨w, hw, hstops i rfl hi⟩

/-- The machine meets a limit in a left-recursive rule, whatever the input. -/
theorem Makes.atLimit_of_leftRecursive (hg : g.Makes p) (hi : g.LeftRecursive i) (H : Host σ)
    (limits : Limits) (fuel : ℕ) (input : String) (s : State σ) :
    ((Machine.mk p H limits fuel).ending i input s).AtLimit := by
  obtain ⟨w, hw, hstops⟩ := hg.follows_stops ⟨p, H, limits, .ofString input⟩ fuel limits.callDepth
    (.ruleIndex i) hi
  obtain ⟨t, ht⟩ := hstops (State.start s.host).toProgress
  have hm := hw (.start s.host)
  rw [ht] at hm
  rw [Machine.ending_eq]
  exact hm.atLimit

end Grammar
end PegMachine
