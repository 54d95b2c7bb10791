import PegMachine.Proofs.Semantics.Agreement
import PegMachine.Proofs.Semantics.Backtrack

/-! A repetition without an upper bound may be written as a bounded one that has none, wherever it
stands in a grammar. The code is another, but it does the same. -/
namespace PegMachine

variable {σ : Type}

/-- A repetition and how it is written as a bounded one. -/
inductive Expr.AsBounded : Expr → Expr → Prop
  | zeroOrMore (e : Expr) {min : Option UInt32} (hm : min = none ∨ min = some 0) :
      AsBounded (.zeroOrMore e) (.bounded e min none none)
  | oneOrMore (e : Expr) : AsBounded (.oneOrMore e) (.bounded e (some 1) none none)

/-- One occurrence of a repetition, at the root or in a part, is written as a bounded one. -/
inductive Expr.Rewritten : Expr → Expr → Prop
  | root {e e' : Expr} (h : e.AsBounded e') : Rewritten e e'
  | named {name : String} {e e' : Expr} (h : Rewritten e e') :
      Rewritten (.named name e) (.named name e')
  | choice {es es' : List Expr} {e e' : Expr} (h : Rewritten e e') :
      Rewritten (.choice (es ++ e :: es')) (.choice (es ++ e' :: es'))
  | action {code : String} {e e' : Expr} (h : Rewritten e e') :
      Rewritten (.action e code) (.action e' code)
  | sequence {es es' : List Expr} {e e' : Expr} (h : Rewritten e e') :
      Rewritten (.sequence (es ++ e :: es')) (.sequence (es ++ e' :: es'))
  | labeled {label : String} {e e' : Expr} (h : Rewritten e e') :
      Rewritten (.labeled label e) (.labeled label e')
  | text {e e' : Expr} (h : Rewritten e e') : Rewritten (.text e) (.text e')
  | followedBy {e e' : Expr} (h : Rewritten e e') : Rewritten (.followedBy e) (.followedBy e')
  | notFollowedBy {e e' : Expr} (h : Rewritten e e') :
      Rewritten (.notFollowedBy e) (.notFollowedBy e')
  | optional {e e' : Expr} (h : Rewritten e e') : Rewritten (.optional e) (.optional e')
  | zeroOrMore {e e' : Expr} (h : Rewritten e e') : Rewritten (.zeroOrMore e) (.zeroOrMore e')
  | oneOrMore {e e' : Expr} (h : Rewritten e e') : Rewritten (.oneOrMore e) (.oneOrMore e')
  | bounded {e e' : Expr} {min max : Option UInt32} {d : Option Expr} (h : Rewritten e e') :
      Rewritten (.bounded e min max d) (.bounded e' min max d)
  | delimiter {e d d' : Expr} {min max : Option UInt32} (h : Rewritten d d') :
      Rewritten (.bounded e min max (some d)) (.bounded e min max (some d'))

/-- One occurrence of a repetition in a rule is written as a bounded one. -/
inductive Grammar.Rewritten : Grammar → Grammar → Prop
  | rule {rs rs' : List Rule} {name : String} {e e' : Expr} (h : e.Rewritten e') :
      Rewritten ⟨rs ++ ⟨name, e⟩ :: rs'⟩ ⟨rs ++ ⟨name, e'⟩ :: rs'⟩

/-- From whatever state, one of the programs ends at one of its limits, or they end alike. -/
def Program.EndsLike (p p' : Program) (H : Host σ) (limits limits' : Limits) (i : ℕ)
    (input : String) : Prop :=
  ∀ s, (∃ r, r.AtLimit ∧ p.Ends H limits i input s r) ∨
    (∃ r, r.AtLimit ∧ p'.Ends H limits' i input s r) ∨
    ∀ r, p.Ends H limits i input s r ↔ p'.Ends H limits' i input s r

section

variable {env : Walk.Env σ} {fuel : ℕ} {wrule : String → Walk σ Value} {e e' : Expr}
  {es es' : List Expr} {code : String}

/-- The expressions are walked alike, they bind the same labels, and an action does not tell them
apart. -/
structure Expr.WalksAs (env : Walk.Env σ) (fuel : ℕ) (wrule : String → Walk σ Value)
    (e e' : Expr) : Prop where
  walk (ls : Labels Value) : e.walk env fuel wrule ls = e'.walk env fuel wrule ls
  bind (v : Value) (ls : Labels Value) : e.bind v ls = e'.bind v ls
  action (code : String) (ls : Labels Value) :
    (Expr.action e code).walk env fuel wrule ls = (Expr.action e' code).walk env fuel wrule ls

/-- An action looks into nothing but sequences. -/
theorem Expr.WalksAs.of_walk (hl : e.hasElements = false) (hl' : e'.hasElements = false)
    (hb : ∀ (v : Value) ls, e.bind v ls = e'.bind v ls)
    (hw : ∀ ls, e.walk env fuel wrule ls = e'.walk env fuel wrule ls) :
    e.WalksAs env fuel wrule e' := by
  refine ⟨hw, hb, fun code ls => ?_⟩
  rw [walk_action hl, walk_action hl', hw]
  refine bind_congr fun p => bind_congr fun v => ?_
  rw [hb]

theorem walkChoice_congr (h : e.WalksAs env fuel wrule e') :
    walkChoice env fuel wrule (es ++ e :: es') = walkChoice env fuel wrule (es ++ e' :: es') := by
  induction es with
  | nil => rw [List.nil_append, List.nil_append, walkChoice, walkChoice, h.walk]
  | cons d es ih => rw [List.cons_append, List.cons_append, walkChoice, walkChoice, ih]

theorem walkElements_congr (h : e.WalksAs env fuel wrule e') (ls : Labels Value) :
    walkElements env fuel wrule (es ++ e :: es') ls =
      walkElements env fuel wrule (es ++ e' :: es') ls := by
  induction es generalizing ls with
  | nil =>
    rw [List.nil_append, List.nil_append, walkElements, walkElements, h.walk]
    refine bind_congr fun v => ?_
    rw [h.bind]
  | cons d es ih =>
    rw [List.cons_append, List.cons_append, walkElements, walkElements]
    refine bind_congr fun v => ?_
    rw [ih]

theorem Expr.walk_actionOfElements_append (ls : Labels Value) :
    (Expr.action (.sequence (es ++ e :: es')) code).walk env fuel wrule ls = (do
      let p ← Walk.place
      walkElements env fuel wrule (es ++ e :: es') [] >>= Walk.settle env p (some code) []) := by
  cases es with
  | nil => exact walk_actionOfElements
  | cons d es => exact walk_actionOfElements

theorem Expr.WalksAs.sequence (h : e.WalksAs env fuel wrule e') :
    (Expr.sequence (es ++ e :: es')).WalksAs env fuel wrule (.sequence (es ++ e' :: es')) := by
  constructor
  · intro ls
    rw [walk_sequence, walk_sequence, walkElements_congr h]
  · intro v ls
    rfl
  · intro code ls
    rw [walk_actionOfElements_append, walk_actionOfElements_append, walkElements_congr h]

theorem Expr.AsBounded.repetition?_eq (h : e.AsBounded e') :
    ∃ r, e.repetition? = some r ∧ e'.repetition? = some r := by
  cases h with
  | @zeroOrMore e min hm =>
    refine ⟨⟨e, 0, none, none⟩, rfl, ?_⟩
    rcases hm with rfl | rfl <;> rfl
  | oneOrMore e => exact ⟨⟨e, 1, none, none⟩, rfl, rfl⟩

theorem Expr.AsBounded.walksAs (h : e.AsBounded e') : e.WalksAs env fuel wrule e' := by
  obtain ⟨r, hr, hr'⟩ := h.repetition?_eq
  have hw : ∀ ls, e.walk env fuel wrule ls = e'.walk env fuel wrule ls := by
    intro ls
    rw [walk_repetition hr, walk_repetition hr']
  cases h with
  | zeroOrMore e hm => exact .of_walk rfl rfl (fun _ _ => rfl) hw
  | oneOrMore e => exact .of_walk rfl rfl (fun _ _ => rfl) hw

theorem Expr.Rewritten.walksAs (h : e.Rewritten e') : e.WalksAs env fuel wrule e' := by
  induction h with
  | root h => exact h.walksAs
  | named h ih =>
    refine .of_walk rfl rfl ih.bind fun ls => ?_
    rw [Expr.walk, Expr.walk, ih.walk]
  | choice h ih =>
    refine .of_walk rfl rfl (fun _ _ => rfl) fun ls => ?_
    rw [Expr.walk, Expr.walk, walkChoice_congr ih]
  | action h ih => exact .of_walk rfl rfl (fun _ _ => rfl) (ih.action _)
  | sequence h ih => exact ih.sequence
  | delimiter h ih =>
    refine .of_walk rfl rfl (fun _ _ => rfl) fun ls => ?_
    rw [Expr.walk, Expr.walk, walkNext, walkNext, ih.walk]
  | labeled h ih | text h ih | followedBy h ih | notFollowedBy h ih | optional h ih
  | zeroOrMore h ih | oneOrMore h ih | bounded h ih =>
    refine .of_walk rfl rfl (fun _ _ => rfl) fun ls => ?_
    rw [Expr.walk, Expr.walk, ih.walk]

end

namespace Grammar

variable {g g' : Grammar} {p p' : Program} {verify verify' : Bool}

theorem Rewritten.ruleIndex?_eq (h : g.Rewritten g') : g.ruleIndex? = g'.ruleIndex? := by
  obtain ⟨h⟩ := h
  funext name
  unfold ruleIndex?
  simp only [List.findIdx?_append, List.findIdx?_cons]

/-- The rules of a number are the same, or one of them is written otherwise. -/
theorem Rewritten.cases_rule (h : g.Rewritten g') (i : ℕ) :
    g.rules[i]? = g'.rules[i]? ∨ ∃ name e e', Expr.Rewritten e e' ∧
      g.rules[i]? = some ⟨name, e⟩ ∧ g'.rules[i]? = some ⟨name, e'⟩ := by
  obtain @⟨rs, rs', name, e, e', h⟩ := h
  rcases Nat.lt_trichotomy i rs.length with hi | rfl | hi
  · left
    simp only [List.getElem?_append_left hi]
  · exact .inr ⟨name, e, e', h, by simp, by simp⟩
  · left
    have hk : i - rs.length = i - rs.length - 1 + 1 := by omega
    simp only [List.getElem?_append_right hi.le]
    rw [hk, List.getElem?_cons_succ, List.getElem?_cons_succ]

theorem Rewritten.walk_eq (h : g.Rewritten g') (env : Walk.Env σ) (fuel depth i : ℕ) :
    g.walk env fuel depth i = g'.walk env fuel depth i := by
  induction depth generalizing i with
  | zero =>
    rw [Grammar.walk, Grammar.walk]
    rcases h.cases_rule i with hr | ⟨name, e, e', -, hr, hr'⟩
    · rw [hr]
    · rw [hr, hr']
  | succ depth ih =>
    have hrules : g.ruleWalk env fuel depth = g'.ruleWalk env fuel depth := by
      funext name
      unfold ruleWalk
      rw [h.ruleIndex?_eq]
      cases g'.ruleIndex? name with
      | none => rfl
      | some j => exact ih j
    rcases h.cases_rule i with hr | ⟨name, e, e', he, hr, hr'⟩
    · cases hr' : g'.rules[i]? with
      | none => rw [Grammar.walk, Grammar.walk, hr, hr']
      | some r => rw [walk_succ _ _ _ (hr.trans hr'), walk_succ _ _ _ hr', hrules]
    · rw [walk_succ _ _ _ hr, walk_succ _ _ _ hr', hrules]
      exact he.walksAs.walk []

theorem Rewritten.ends_iff (h : g.Rewritten g') (H : Host σ) (i : ℕ) (input : String) (s : σ)
    (r : Ending σ) : g.Ends H i input s r ↔ g'.Ends H i input s r := by
  unfold Ends ending
  simp only [h.walk_eq]

/-- Any number of repetitions are written otherwise. -/
theorem ends_iff_of_rewritten (h : Relation.ReflTransGen Rewritten g g') (H : Host σ) (i : ℕ)
    (input : String) (s : σ) (r : Ending σ) : g.Ends H i input s r ↔ g'.Ends H i input s r := by
  induction h with
  | refl => exact Iff.rfl
  | tail _ h ih => exact ih.trans (h.ends_iff H i input s r)

theorem EndsAs.endsLike {H : Host σ} {limits limits' : Limits} {i : ℕ} {input : String}
    (hp : g.EndsAs p H limits i input) (hp' : g'.EndsAs p' H limits' i input)
    (h : ∀ s r, g.Ends H i input s r ↔ g'.Ends H i input s r) :
    p.EndsLike p' H limits limits' i input := by
  intro s
  rcases hp s with ⟨r, hl, hr⟩ | hr
  · exact .inl ⟨r, hl, (hr r).mpr rfl⟩
  rcases hp' s with ⟨r, hl, hr'⟩ | hr'
  · exact .inr (.inl ⟨r, hl, (hr' r).mpr rfl⟩)
  · exact .inr (.inr fun r => (hr r).trans ((h s.host r).trans (hr' r).symm))

/-- A repetition without an upper bound may be written as a bounded one wherever it stands, and so may
any number of them: short of their limits, the programs end alike in every rule, with the same value,
place and report and the same state of the host. With a host that records its calls, the calls are the
same too. -/
theorem generate_rewritten (hg : g.generate verify = .ok p) (hg' : g'.generate verify' = .ok p')
    (h : Relation.ReflTransGen Rewritten g g') (H : Host σ) (limits limits' : Limits) (i : ℕ)
    (input : String) : p.EndsLike p' H limits limits' i input ∧
      p.EndsLike p' H.recorded limits limits' i input := by
  have hmakes := generate_makes hg
  have hmakes' := generate_makes hg'
  constructor
  · exact (hmakes.endsAs H limits i input).endsLike (hmakes'.endsAs H limits' i input)
      fun s r => ends_iff_of_rewritten h H i input s r
  · exact (hmakes.endsAs H.recorded limits i input).endsLike
      (hmakes'.endsAs H.recorded limits' i input)
      fun s r => ends_iff_of_rewritten h H.recorded i input s r

/-- A word, with its letters repeated in either way. -/
theorem generate_rewritten_word :
    let g : Grammar := ⟨[⟨"word", .text (.oneOrMore .any)⟩]⟩
    let g' : Grammar := ⟨[⟨"word", .text (.bounded .any (some 1) none none)⟩]⟩
    let H : Host Unit := Host.none
    let r : Ending Unit := .returns ⟨.string "ab", 2, ⟨2, [.anyChar]⟩⟩ ()
    ∃ p p', g.generate true = .ok p ∧ g'.generate true = .ok p' ∧ p ≠ p' ∧
      Relation.ReflTransGen Rewritten g g' ∧ p.Ends H {} 0 "ab" (.start ()) r ∧
      p'.Ends H {} 0 "ab" (.start ()) r ∧
      ∀ r, p.Ends H {} 0 "ab" (.start ()) r ↔ p'.Ends H {} 0 "ab" (.start ()) r := by
  intro g g' H r
  let word : Code := [1, 0, 0, 15, 2, 2, 19, 1, 21, 2, 11, 11, 4, 14, 8, 6, 15, 2, 2, 19, 1, 21, 2, 2,
    2, 2, 0, 1, 11, 1, 0, 8, 5]
  let word' : Code := [1, 0, 0, 15, 2, 2, 19, 1, 21, 2, 14, 15, 6, 0, 4, 13, 2, 7, 0, 1, 15, 2, 2, 19,
    1, 21, 2, 2, 0, 3, 12, 3, 0, 2, 0, 1, 11, 1, 0, 8, 5]
  let p : Program := ⟨[⟨"word", word⟩], [.emptyArray, .failed, .expectation .anyChar]⟩
  let p' : Program := ⟨[⟨"word", word'⟩],
    [.emptyArray, .failed, .expectation .anyChar, .bound (some 1), .bound none]⟩
  have hg : g.generate true = .ok p := by decide +kernel
  have hg' : g'.generate true = .ok p' := by decide +kernel
  have hrewritten : Rewritten g g' :=
    @Rewritten.rule [] [] "word" _ _ (.text (.root (.oneOrMore .any)))
  have hl : p.load = [⟨"word", .instr 0 .pushPos (.instr 1 (.push 0)
      (.branch 3 .any 2 2 (.instr 6 (.acceptN 1) .done) (.instr 8 (.fail 2) .done)
        (.branch 10 .isMatched 11 4
          (.loop 13 8 (.instr 15 .append (.branch 16 .any 2 2 (.instr 19 (.acceptN 1) .done)
            (.instr 21 (.fail 2) .done) .done)) (.instr 23 .pop .done))
          (.instr 24 .pop (.instr 25 .pop (.instr 26 (.push 1) .done)))
          (.branch 28 .isMatched 1 0 (.instr 31 .text .done) .done (.instr 32 .nip .done)))))⟩] := by
    decide +kernel
  have hl' : p'.load = [⟨"word", .instr 0 .pushPos (.instr 1 (.push 0)
      (.branch 3 .any 2 2 (.instr 6 (.acceptN 1) .done) (.instr 8 (.fail 2) .done)
        (.loop 10 15 (.instr 12 .append (.instr 13 (.push 4)
            (.branch 15 .isFull 2 7 (.instr 18 (.push 1) .done) (.branch 20 .any 2 2
              (.instr 23 (.acceptN 1) .done) (.instr 25 (.fail 2) .done) .done) .done)))
          (.instr 27 .pop (.instr 28 (.push 3) (.branch 30 .isShort 3 0
            (.instr 33 .pop (.instr 34 (.push 1) .done)) .done
            (.branch 36 .isMatched 1 0 (.instr 39 .text .done) .done
              (.instr 40 .nip .done))))))))⟩] := by
    decide +kernel
  have hr : (Machine.mk p H {} 2).ending 0 "ab" (.start ()) = r := by
    rw [Machine.ending_eq, hl]
    rfl
  have hr' : (Machine.mk p' H {} 2).ending 0 "ab" (.start ()) = r := by
    rw [Machine.ending_eq, hl']
    rfl
  have hends : p.Ends H {} 0 "ab" (.start ()) r := ⟨by simp [r], 2, hr⟩
  have hends' : p'.Ends H {} 0 "ab" (.start ()) r := ⟨by simp [r], 2, hr'⟩
  have hlike := (generate_rewritten hg hg' (.single hrewritten) H {} {} 0 "ab").1 (.start ())
  refine ⟨p, p', hg, hg', by decide, .single hrewritten, hends, hends', ?_⟩
  rcases hlike with ⟨x, hlimit, hx⟩ | ⟨x, hlimit, hx⟩ | hlike
  · obtain rfl := p.ends_unique hends hx
    exact hlimit.elim
  · obtain rfl := p'.ends_unique hends' hx
    exact hlimit.elim
  · exact hlike

end Grammar
end PegMachine
