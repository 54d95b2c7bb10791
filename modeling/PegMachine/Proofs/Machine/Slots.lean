import PegMachine.Proofs.Code.Slots
import PegMachine.Proofs.Machine.Frame
import PegMachine.Proofs.Semantics.Nodes

/-! Runs of typed code. The values on the stack fill the slots: values that functions may see are
where they are foreseen, and the saved places lie in the order in which they were saved, none of them
behind the place where the machine stands. -/
namespace PegMachine

variable {σ α β : Type} {K : List Constant} {ok : Calling} {c : Code} {Γ Δ Γyes Γno : List Slot}
  {S S' T U : Stack} {input : Input} {V : Value → Prop} {o lo hi p q n : ℕ} {u : Slot} {v : Value}
  {i : Instr}

open Run

/-- From place `p` of the input on: `q` is `p` or a place behind it, and lies in the input too. Nothing
is said of what comes from places outside the input. -/
def Input.Onward (input : Input) (p q : ℕ) : Prop := p ≤ input.size → p ≤ q ∧ q ≤ input.size

namespace Input.Onward

theorem refl (input : Input) (p : ℕ) : input.Onward p p := fun h => ⟨le_rfl, h⟩

theorem trans {r : ℕ} (h : input.Onward p q) (h' : input.Onward q r) : input.Onward p r := by
  intro hp
  obtain ⟨hpq, hq⟩ := h hp
  obtain ⟨hqr, hr⟩ := h' hq
  exact ⟨hpq.trans hqr, hr⟩

/-- Moving over characters, as far as there are any. -/
theorem accept (input : Input) (p n : ℕ) : input.Onward p (min (p + n) input.size) := by
  intro hp
  omega

/-- Moving over a text that stands there. -/
theorem of_hasAt {s : String} (h : input.hasAt p s = true) : input.Onward p (p + s.length) := by
  intro _
  obtain ⟨hs, -⟩ := Bool.and_eq_true_iff.mp h
  exact ⟨Nat.le_add_right _ _, of_decide_eq_true hs⟩

end Input.Onward

/-- What may fill a slot that is not for a place. `V` is said of the values that functions may see. -/
def Slot.Holds (V : Value → Prop) : Slot → Value → Prop
  | .place, _ => False
  | .value, v => V v
  | .result, v => v = .failed ∨ V v
  | .bound, _ => True

/-- The values fill the slots. From the bottom up, each of the places is on from the one before it, the
first from `lo`, and `hi` is on from the last. -/
inductive Fills (input : Input) (V : Value → Prop) (lo : ℕ) : ℕ → List Slot → Stack → Prop
  | nil {hi : ℕ} (h : input.Onward lo hi) : Fills input V lo hi [] []
  | place {p hi : ℕ} {Γ : List Slot} {U : Stack} (h : input.Onward p hi)
      (hU : Fills input V lo p Γ U) : Fills input V lo hi (.place :: Γ) (.pos p :: U)
  | keep {u : Slot} {v : Value} {hi : ℕ} {Γ : List Slot} {U : Stack} (hv : u.Holds V v)
      (hU : Fills input V lo hi Γ U) : Fills input V lo hi (u :: Γ) (v :: U)

namespace Fills

theorem mono (hU : Fills input V lo p Γ U) (h : input.Onward p q) : Fills input V lo q Γ U := by
  induction hU with
  | nil h' => exact .nil (h'.trans h)
  | place h' hU _ => exact .place (h'.trans h) hU
  | keep hv _ ih => exact .keep hv (ih h)

theorem onward (hU : Fills input V lo hi Γ U) : input.Onward lo hi := by
  induction hU with
  | nil h => exact h
  | place h _ ih => exact ih.trans h
  | keep _ _ ih => exact ih

theorem tail (hU : Fills input V lo hi (u :: Γ) U) :
    ∃ v U', U = v :: U' ∧ Fills input V lo hi Γ U' := by
  cases hU with
  | place h hU => exact ⟨_, _, rfl, hU.mono h⟩
  | keep _ hU => exact ⟨_, _, rfl, hU⟩

theorem saved (hU : Fills input V lo hi (.place :: Γ) U) :
    ∃ p U', U = .pos p :: U' ∧ input.Onward p hi ∧ Fills input V lo p Γ U' := by
  cases hU with
  | place h hU => exact ⟨_, _, rfl, h, hU⟩
  | keep hv _ => exact hv.elim

theorem held (hU : Fills input V lo hi (u :: Γ) U) (hu : u ≠ .place) :
    ∃ v U', U = v :: U' ∧ u.Holds V v ∧ Fills input V lo hi Γ U' := by
  cases hU with
  | place _ _ => exact absurd rfl hu
  | keep hv hU => exact ⟨_, _, rfl, hv, hU⟩

/-- A result that is not the mark of failure. -/
theorem matched (hU : Fills input V lo hi (.result :: Γ) (v :: U)) (hv : v.isFailed = false) :
    Fills input V lo hi (.value :: Γ) (v :: U) := by
  cases hU with
  | keep h hU =>
    refine .keep (h.resolve_left ?_) hU
    rintro rfl
    cases hv

/-- The values under some others fill the slots under theirs. -/
theorem drop (hU : Fills input V lo hi (Δ ++ Γ) U) :
    ∃ W U', U = W ++ U' ∧ W.length = Δ.length ∧ Fills input V lo hi Γ U' := by
  induction Δ generalizing U with
  | nil => exact ⟨[], U, rfl, rfl, hU⟩
  | cons u Δ ih =>
    obtain ⟨v, U, rfl, hU'⟩ := hU.tail
    obtain ⟨W, U', rfl, hl, hU'⟩ := ih hU'
    exact ⟨v :: W, U', rfl, congrArg Nat.succ hl, hU'⟩

theorem values (hU : Fills input V lo hi (List.replicate n .value ++ Γ) U) :
    ∃ W U', U = W ++ U' ∧ W.length = n ∧ (∀ v ∈ W, V v) ∧ Fills input V lo hi Γ U' := by
  induction n generalizing U with
  | zero => exact ⟨[], U, rfl, rfl, by simp, hU⟩
  | succ n ih =>
    obtain ⟨v, U, rfl, hv, hU⟩ := held (Γ := List.replicate n .value ++ Γ) hU (by simp)
    obtain ⟨W, U', rfl, hl, hW, hU⟩ := ih hU
    exact ⟨v :: W, U', rfl, congrArg Nat.succ hl, List.forall_mem_cons.mpr ⟨hv, hW⟩, hU⟩

theorem get (hU : Fills input V lo hi Γ U) {k : ℕ} (hk : Γ[k]? = some u) :
    ∃ v q Γ' U', U[k]? = some v ∧ input.Onward q hi ∧ Fills input V lo q (u :: Γ') (v :: U') := by
  induction k generalizing Γ U with
  | zero =>
    cases Γ with
    | nil => cases hk
    | cons u' Γ =>
      obtain rfl := Option.some.inj hk
      obtain ⟨v, U, rfl, -⟩ := hU.tail
      exact ⟨v, hi, Γ, U, rfl, .refl _ _, hU⟩
  | succ k ih =>
    cases Γ with
    | nil => cases hk
    | cons u' Γ =>
      obtain ⟨v, U, rfl, hU'⟩ := hU.tail
      obtain ⟨w, q, Γ', U', hw, hq, hw'⟩ := ih hU' hk
      exact ⟨w, q, Γ', U', hw, hq, hw'⟩

end Fills

namespace Run

/-- However the run ends, `I` holds of the state then; and if it ends with a result, so does `Q`. -/
def Upholds (I : State σ → Prop) (Q : α → State σ → Prop) : EStateM.Result Stop (State σ) α → Prop
  | .ok a t => I t ∧ Q a t
  | .error _ t => I t

namespace Upholds

variable {I : State σ → Prop} {Q : α → State σ → Prop} {R : β → State σ → Prop} {f : Run σ α}
  {f' : α → Run σ β} {s : State σ}

theorem bind (hf : Upholds I Q (f s)) (hk : ∀ a t, I t → Q a t → Upholds I R (f' a t)) :
    Upholds I R ((f >>= f') s) := by
  change Upholds I R (EStateM.bind f f' s)
  unfold EStateM.bind
  cases hx : f s with
  | ok a t =>
    rw [hx] at hf
    exact hk a t hf.1 hf.2
  | error x t =>
    rw [hx] at hf
    exact hf

theorem imp {I' : State σ → Prop} {Q' : α → State σ → Prop}
    {x : EStateM.Result Stop (State σ) α} (h : Upholds I Q x) (hI : ∀ t, I t → I' t)
    (hQ : ∀ a t, I t → Q a t → Q' a t) : Upholds I' Q' x := by
  cases x with
  | ok a t => exact ⟨hI t h.1, hQ a t h.1 h.2⟩
  | error x t => exact hI t h

theorem ofExcept {x : Except Fault α} (hs : I s) :
    Upholds I (fun a t => x = .ok a ∧ t = s) (ofExcept x s) := by
  cases x with
  | ok a => exact ⟨hs, rfl, rfl⟩
  | error e => exact hs

end Upholds
end Run

/-- The machine stands at a place that is on from `o`, and `J` holds of the report and of the state of
the host. -/
def State.Sound (input : Input) (o : ℕ) (J : Report → σ → Prop) (s : State σ) : Prop :=
  input.Onward o s.pos ∧ J s.report s.host

/-- What runs of typed code rely on. Functions may see what is made of values that they may see, and
answer with such values; and `J` holds after a failure and after a call, if it holds before. -/
structure Env.Trusts (env : Env σ) (ok : Calling) (o : ℕ) (V : Value → Prop)
    (J : Report → σ → Prop) : Prop where
  undefined : V .undefined
  null : V .null
  string (s : String) : V (.string s)
  array (vs : List Value) : V (.array vs) ↔ ∀ v ∈ vs, V v
  record {r : Report} {h : σ} {p : ℕ} (hp : env.input.Onward o p) (hJ : J r h) (e : Expectation) :
    J (r.record p e) h
  call {f : ActionFn} {Γ : List Slot} {slots : Code} {U T : Stack} {args : List Value}
    {lo reported pos : ℕ} {r : Report} {h : σ} (hok : ok f Γ slots)
    (hU : Fills env.input V lo pos Γ U) (hargs : (U ++ T).peekAll slots = .ok args)
    (ho : env.input.Onward o reported) (hpos : env.input.Onward reported pos) (hJ : J r h) :
    J r (env.host f ⟨env.input, reported, pos⟩ args h).2 ∧
      ∀ v, (env.host f ⟨env.input, reported, pos⟩ args h).1 = .ok v → V v

/-- What the runs of rules uphold: a result, at a place that is on from where the rule has started. -/
def Run.UpholdsRule (env : Env σ) (o : ℕ) (V : Value → Prop) (J : Report → σ → Prop)
    (f : Run σ Value) : Prop :=
  ∀ s, s.Sound env.input o J → Upholds (State.Sound env.input o J)
    (fun v t => (v = .failed ∨ V v) ∧ env.input.Onward s.pos t.pos) (f s)

section

variable {A : Activation σ} {J : Report → σ → Prop} {s : State σ}

theorem Run.Upholds.tick {limits : Limits} (hs : s.Sound input o J) (S : Stack) :
    Upholds (State.Sound input o J) (fun _ t => t = { s with steps := s.steps + 1 })
      (tick limits S s) := by
  rcases tick_cases limits S s with h | ⟨x, -, h⟩
  · rw [h]
    exact ⟨hs, rfl⟩
  · rw [h]
    exact hs

theorem Constant.exists_value {x : Constant} (hx : x.slot? = some u) (hu : A.env.Trusts ok o V J) :
    ∃ v, x.value? = some v ∧ u.Holds V v := by
  cases x with
  | failed => cases hx; exact ⟨_, rfl, .inl rfl⟩
  | undefined => cases hx; exact ⟨_, rfl, hu.undefined⟩
  | null => cases hx; exact ⟨_, rfl, hu.null⟩
  | emptyArray => cases hx; exact ⟨_, rfl, (hu.array []).mpr (by simp)⟩
  | string t => cases hx; exact ⟨_, rfl, hu.string t⟩
  | bound b => cases hx; exact ⟨_, rfl, trivial⟩
  | charClass | expectation | function => cases hx

theorem State.Sound.fail (hs : s.Sound A.env.input o J) (hu : A.env.Trusts ok o V J)
    (e : Expectation) :
    State.Sound A.env.input o J { s with toProgress := s.toProgress.fail e } := by
  unfold Progress.fail
  split
  · exact ⟨hs.1, hu.record hs.1 hs.2 e⟩
  · exact hs

/-- The stack fills slots `Δ` above the values `T`. -/
def Activation.Leaves (A : Activation σ) (V : Value → Prop) (lo : ℕ) (T : Stack) (Δ : List Slot)
    (S : Stack) (t : State σ) : Prop :=
  ∃ U, S = U ++ T ∧ Fills A.env.input V lo t.pos Δ U

/-- Above whatever values, `f` finds slots `Γ` filled and leaves `Δ`. -/
def Activation.Delivers (A : Activation σ) (o lo : ℕ) (V : Value → Prop) (J : Report → σ → Prop)
    (f : Stack → Run σ Stack) (Γ Δ : List Slot) : Prop :=
  ∀ U T s, Fills A.env.input V lo s.pos Γ U → s.Sound A.env.input o J →
    Upholds (State.Sound A.env.input o J) (A.Leaves V lo T Δ) (f (U ++ T) s)

/-- An instruction that only moves values on the stack. -/
theorem Instr.Moves.upholds {W : Stack} (hi : i.Moves A S (W ++ T))
    (hW : Fills A.env.input V lo s.pos Δ W) (hs : s.Sound A.env.input o J) :
    Upholds (State.Sound A.env.input o J) (A.Leaves V lo T Δ) (i.run A.env A.rule S s) := by
  rw [hi s]
  exact ⟨hs, W, rfl, hW⟩

/-- An instruction that finds an operand missing. -/
theorem Instr.upholds_fault {x : Stop} {Q : Stack → State σ → Prop}
    (hi : i.run A.env A.rule S s = .error x s) (hs : s.Sound A.env.input o J) :
    Upholds (State.Sound A.env.input o J) Q (i.run A.env A.rule S s) := by
  rw [hi]
  exact hs

theorem Instr.Turns.delivers (hi : i.Turns A.env.program.consts Γ Δ)
    (hK : A.env.program.consts.length ≤ UInt32.size) (hu : A.env.Trusts ok o V J)
    (hr : ∀ j, UpholdsRule A.env o V J (A.rule j)) (hlo : A.env.input.Onward o lo) :
    A.Delivers o lo V J (i.run A.env A.rule) Γ Δ := by
  intro U T s hU hs
  cases hi with
  | push hk hx =>
    obtain ⟨v, hv, hh⟩ := Constant.exists_value hx hu
    exact Moves.upholds (W := v :: U) ((hk.has hK).push hv) (.keep hh hU) hs
  | pushPos => exact ⟨hs, .pos s.pos :: U, rfl, .place (.refl _ _) hU⟩
  | pop =>
    obtain ⟨v, U, rfl, hU'⟩ := hU.tail
    exact Moves.upholds moves_pop hU' hs
  | popPos =>
    obtain ⟨p, U, rfl, -, hU⟩ := hU.saved
    exact ⟨⟨hlo.trans hU.onward, hs.2⟩, U, rfl, hU⟩
  | popN hn =>
    obtain ⟨W, U, rfl, hl, hU⟩ := hU.drop
    rw [List.append_assoc]
    exact Moves.upholds (moves_popN (hn.trans hl.symm)) hU hs
  | nip =>
    cases hU with
    | place h hU =>
      obtain ⟨v, U, rfl, hU'⟩ := hU.tail
      exact Moves.upholds (W := _ :: U) moves_nip (.place h hU') hs
    | keep hv hU =>
      obtain ⟨v, U, rfl, hU'⟩ := hU.tail
      exact Moves.upholds (W := _ :: U) moves_nip (.keep hv hU') hs
  | append =>
    obtain ⟨v, U, rfl, hv, hU'⟩ := hU.held (by simp)
    obtain ⟨w, U, rfl, hw, hrest⟩ := hU'.held (by simp)
    cases w with
    | array vs =>
      have hvs : V (.array (vs ++ [v])) := by
        rw [hu.array]
        have := (hu.array vs).mp hw
        grind [Slot.Holds]
      exact Moves.upholds (W := _ :: U) moves_append (.keep hvs hrest) hs
    | _ => exact upholds_fault rfl hs
  | wrap hn =>
    obtain ⟨W, U, rfl, hl, hW, hU⟩ := hU.values
    rw [List.append_assoc]
    have hvs : V (.array W.reverse) := by
      rw [hu.array]
      simpa using hW
    exact Moves.upholds (W := _ :: U) (moves_wrap (hn.trans hl.symm)) (.keep hvs hU) hs
  | text =>
    obtain ⟨v, U, rfl, hU'⟩ := hU.tail
    obtain ⟨p, U, rfl, hp, hrest⟩ := hU'.saved
    exact ⟨hs, _ :: .pos p :: U, rfl, .keep (hu.string _) (.place hp hrest)⟩
  | acceptN =>
    have hmove := Input.Onward.accept A.env.input s.pos
    exact ⟨⟨hs.1.trans (hmove _), hs.2⟩, _ :: U, rfl, .keep (hu.string _) (hU.mono (hmove _))⟩
  | @fail e =>
    rw [run]
    refine (Upholds.ofExcept hs).bind ?_
    rintro x t - ⟨-, rfl⟩
    have hpos : (t.toProgress.fail x).pos = t.pos := by
      unfold Progress.fail
      split <;> rfl
    refine ⟨hs.fail hu x, .failed :: U, rfl, .keep (.inl rfl) ?_⟩
    change Fills _ _ _ (t.toProgress.fail x).pos _ _
    rwa [hpos]
  | rule =>
    refine (hr _ s hs).bind ?_
    rintro v t ht ⟨hv, hp⟩
    exact ⟨ht, v :: U, rfl, .keep hv (hU.mono hp)⟩

/-- The answer to a test tells which slots are left. -/
theorem Test.Turns.fills {t : Test} (ht : t.Turns Γ Γyes Γno) (hU : Fills input V lo hi Γ U)
    {answer : Bool} (h : t.holds A.env n (U ++ T) = .ok (answer, S)) :
    ∃ U', S = U' ++ T ∧ Fills input V lo hi (if answer then Γyes else Γno) U' := by
  cases ht with
  | isTrue =>
    obtain ⟨v, U, rfl, -⟩ := hU.tail
    cases h
    exact ⟨v :: U, rfl, by simpa using hU⟩
  | isFailed | isMatched =>
    obtain ⟨v, U, rfl, -⟩ := hU.tail
    cases h
    refine ⟨v :: U, rfl, ?_⟩
    cases hf : v.isFailed with
    | true => exact hU
    | false => exact hU.matched hf
  | isShort | isFull =>
    obtain ⟨b, U, rfl, hU'⟩ := hU.tail
    obtain ⟨x, hx, h⟩ := except_bind_eq_ok.mp h
    obtain rfl := Except.ok.inj hx
    simp only [except_bind_eq_ok] at h
    obtain ⟨_, _, _, _, _, _, h⟩ := h
    cases h
    exact ⟨U, rfl, by simpa using hU'⟩
  | any =>
    cases h
    exact ⟨U, rfl, by simpa using hU⟩
  | string | folded | charClass =>
    obtain ⟨_, _, h⟩ := except_bind_eq_ok.mp h
    cases h
    exact ⟨U, rfl, by simpa using hU⟩

namespace Activation.Delivers

variable {f g : Stack → Run σ Stack} {Θ : List Slot} {a yes no br : Code} {t : Test}

theorem bind (hf : A.Delivers o lo V J f Γ Δ) (hg : A.Delivers o lo V J g Δ Θ) :
    A.Delivers o lo V J (fun S => f S >>= g) Γ Θ := by
  intro U T s hU hs
  refine (hf U T s hU hs).bind ?_
  rintro S t ht ⟨U', rfl, hU'⟩
  exact hg U' T t hU' ht

theorem append (ha : a.Whole) (hf : ∀ ip, A.Delivers o lo V J (A.exec ip a) Γ Δ)
    (hg : ∀ ip, A.Delivers o lo V J (A.exec ip c) Δ Θ) (ip : ℕ) :
    A.Delivers o lo V J (A.exec ip (a ++ c)) Γ Θ := by
  intro U T s hU hs
  rw [exec_append ha]
  exact (hf ip).bind (hg _) U T s hU hs

/-- Code behind an instruction. -/
theorem words (hi : A.Delivers o lo V J (i.run A.env A.rule) Γ Δ)
    (hc : ∀ ip, A.Delivers o lo V J (A.exec ip c) Δ Θ) (ip : ℕ) :
    A.Delivers o lo V J (A.exec ip (i.words ++ c)) Γ Θ := by
  intro U T s hU hs
  rw [exec_words]
  refine (Upholds.tick hs _).bind ?_
  rintro - _ hs rfl
  exact (hi.bind (hc _)) U T _ hU hs

theorem branch (hb : Code.branch t.words yes no = .ok br) (ht : t.Turns Γ Γyes Γno)
    (hy : ∀ ip, A.Delivers o lo V J (A.exec ip yes) Γyes Δ)
    (hn : ∀ ip, A.Delivers o lo V J (A.exec ip no) Γno Δ) (ip : ℕ) :
    A.Delivers o lo V J (A.exec ip br) Γ Δ := by
  intro U T s hU hs
  obtain ⟨j, k, hx⟩ := A.exec_branch hb ip (U ++ T)
  rw [hx]
  refine (Upholds.tick hs _).bind ?_
  rintro - u hs rfl
  change Upholds _ _ ((ofExcept (t.holds A.env s.pos (U ++ T)) >>= _) _)
  refine (Upholds.ofExcept hs).bind ?_
  rintro ⟨answer, S⟩ u - ⟨h, rfl⟩
  obtain ⟨U', rfl, hU'⟩ := ht.fills hU h
  cases answer with
  | true => exact hy j U' T _ hU' hs
  | false => exact hn k U' T _ hU' hs

theorem whileMatched (hb : A.Delivers o lo V J f (.value :: Γ) (.result :: Γ)) (fuel : ℕ) :
    A.Delivers o lo V J (Run.whileMatched f fuel) (.result :: Γ) (.result :: Γ) := by
  induction fuel with
  | zero =>
    intro U T s hU hs
    obtain ⟨v, U, rfl, -⟩ := hU.tail
    rw [Run.whileMatched]
    change Upholds _ _ ((if v.isFailed then _ else _ : Run σ Stack) s)
    split
    · exact ⟨hs, _, rfl, hU⟩
    · exact hs
  | succ fuel ih =>
    intro U T s hU hs
    obtain ⟨v, U, rfl, -⟩ := hU.tail
    rw [Run.whileMatched]
    change Upholds _ _ ((if v.isFailed then _ else _ : Run σ Stack) s)
    split
    · exact ⟨hs, _, rfl, hU⟩
    · next hf => exact (hb.bind ih) (v :: U) T s (hU.matched (by simpa using hf)) hs

/-- A text is taken where it has been found. -/
theorem take {k : UInt32}
    (hb : Code.branch (Test.words (.string k)) (Code.seq [.acceptString k]) no = .ok br)
    (hu : A.env.Trusts ok o V J) (hn : ∀ ip, A.Delivers o lo V J (A.exec ip no) Γ (.result :: Γ))
    (ip : ℕ) : A.Delivers o lo V J (A.exec ip br) Γ (.result :: Γ) := by
  intro U T s hU hs
  obtain ⟨j, j', hx⟩ := A.exec_branch hb ip (U ++ T)
  rw [hx]
  refine (Upholds.tick hs _).bind ?_
  rintro - u hs rfl
  change Upholds _ _ ((ofExcept (Test.holds A.env s.pos (.string k) (U ++ T)) >>= _) _)
  refine (Upholds.ofExcept hs).bind ?_
  rintro ⟨answer, S⟩ u - ⟨h, rfl⟩
  obtain ⟨t, hk, h⟩ := except_bind_eq_ok.mp h
  cases h
  cases hat : A.env.input.hasAt s.pos t with
  | true =>
    have hmove := Input.Onward.of_hasAt hat
    have hone : Code.seq [.acceptString k] = Instr.words (.acceptString k) := List.append_nil _
    change Upholds _ _ (A.exec j (Code.seq [.acceptString k]) (U ++ T) _)
    rw [hone, exec_instr]
    refine (Upholds.tick hs _).bind ?_
    rintro - u hs rfl
    rw [Instr.run, hk]
    exact ⟨⟨hs.1.trans hmove, hs.2⟩, _ :: U, rfl, .keep (.inr (hu.string t)) (hU.mono hmove)⟩
  | false => exact hn j' U T _ hU hs

end Activation.Delivers

/-- What the instruction before a call leaves. -/
theorem Instr.Reports.upholds (hi : i.Reports Γ) (hU : Fills A.env.input V lo s.pos Γ U)
    (hs : s.Sound A.env.input o J) (hlo : A.env.input.Onward o lo) :
    Upholds (State.Sound A.env.input o J) (fun S t => S = U ++ T ∧ t.pos = s.pos ∧
      A.env.input.Onward o t.reported ∧ A.env.input.Onward t.reported t.pos)
      (i.run A.env A.rule (U ++ T) s) := by
  cases hi with
  | here => exact ⟨hs, rfl, rfl, hs.1, .refl _ _⟩
  | @saved k _ hk =>
    obtain ⟨v, q, Γ', U', hv, hq, hU'⟩ := hU.get hk
    obtain ⟨p, _, hcons, hp, hU'⟩ := hU'.saved
    obtain ⟨rfl, rfl⟩ := List.cons.inj hcons
    have hlt := (List.getElem?_eq_some_iff.mp hv).1
    have hpeek : Stack.peek (U ++ T) k.toNat = .ok (.pos p) := by
      rw [Stack.peek_eq_ok, List.getElem?_append_left hlt, hv]
    rw [run, hpeek]
    exact ⟨hs, rfl, rfl, hlo.trans hU'.onward, hp.trans hq⟩

theorem Activation.Has.toFunction {k : UInt32} {f : ActionFn} (h : A.Has k (.function f)) :
    A.env.program.function k = .ok f := by
  rw [Program.function, h]

theorem Run.upholds_callHost {k : UInt32} {f : ActionFn} {slots : Code} {args : List Value}
    (hu : A.env.Trusts ok o V J) (hf : A.env.program.function k = .ok f) (hok : ok f Γ slots)
    (hU : Fills A.env.input V lo s.pos Γ U) (hargs : (U ++ T).peekAll slots = .ok args)
    (ho : A.env.input.Onward o s.reported) (hp : A.env.input.Onward s.reported s.pos)
    (hs : s.Sound A.env.input o J) :
    Upholds (State.Sound A.env.input o J) (fun v t => V v ∧ t.pos = s.pos)
      (callHost A.env k args s) := by
  obtain ⟨hJ, hv⟩ := hu.call hok hU hargs ho hp hs.2
  rw [callHost_eq A.env hf]
  split
  · next v h heq =>
    rw [heq] at hJ hv
    exact ⟨⟨hs.1, hJ⟩, hv v rfl, rfl⟩
  · next e h heq =>
    rw [heq] at hJ
    exact ⟨hs.1, hJ⟩

namespace Typed

/-- The run lemma of typed code: it finds the slots filled that it starts from, and fills those that
are foreseen at its end. -/
theorem delivers (hc : Typed A.env.program.consts ok c Γ Δ)
    (hK : A.env.program.consts.length ≤ UInt32.size) (hu : A.env.Trusts ok o V J)
    (hr : ∀ j, UpholdsRule A.env o V J (A.rule j)) (hlo : A.env.input.Onward o lo) (ip : ℕ) :
    A.Delivers o lo V J (A.exec ip c) Γ Δ := by
  induction hc generalizing ip with
  | nil =>
    intro U T s hU hs
    rw [Activation.exec_nil]
    exact ⟨hs, U, rfl, hU⟩
  | widen _ ih =>
    intro U T s hU hs
    obtain ⟨v, U, rfl, hv, hU'⟩ := hU.held (by simp)
    exact ih ip (v :: U) T s (.keep (.inr hv) hU') hs
  | instr hi _ ih => exact .words (hi.delivers hK hu hr hlo) ih ip
  | silenced hi _ ihi ih =>
    have hon Γ : A.Delivers o lo V J (Instr.silenceOn.run A.env A.rule) Γ Γ :=
      fun U T s hU hs => ⟨hs, U, rfl, hU⟩
    have hoff Γ : A.Delivers o lo V J (Instr.silenceOff.run A.env A.rule) Γ Γ :=
      fun U T s hU hs => ⟨hs, U, rfl, hU⟩
    exact .words (hon _) (.append hi.whole ihi (.words (hoff _) ih)) ip
  | branch hb ht _ _ _ ihy ihn ih => exact .append (Code.whole_branch hb) (.branch hb ht ihy ihn) ih ip
  | take hb _ _ ihn ih => exact .append (Code.whole_branch hb) (.take hb hu ihn) ih ip
  | loop hl _ _ ihb ih =>
    intro U T s hU hs
    obtain ⟨j, hx⟩ := Activation.exec_loop hl A ip (U ++ T)
    rw [Activation.exec_append (Code.whole_loop hl), hx, bind_assoc]
    refine (Upholds.tick hs _).bind ?_
    rintro - u hs rfl
    exact ((ihb j).whileMatched A.fuel).bind (ih _) U T _ hU hs
  | @call i f pops n slots c fn Γ Δ Θ hi hf hn hp hok _ ih =>
    intro U T s hU hs
    rw [Activation.exec_words]
    refine (Upholds.tick hs _).bind ?_
    rintro - u hs rfl
    refine (hi.upholds (s := { s with steps := s.steps + 1 }) hU hs hlo).bind ?_
    rintro S u hs ⟨rfl, hpos, ho, hreported⟩
    rw [Activation.exec_append (Code.whole_slots hn), Activation.exec_call hn]
    simp only [bind_assoc, pure_bind]
    refine (Upholds.tick hs _).bind ?_
    rintro - u hs rfl
    refine (Upholds.ofExcept hs).bind ?_
    rintro args u - ⟨hargs, rfl⟩
    rw [← hpos] at hU
    have hcall := upholds_callHost (s := { u with steps := u.steps + 1 }) hu
      (hf.has hK).toFunction hok hU hargs ho hreported hs
    refine hcall.bind ?_
    rintro v w hs ⟨hv, hpos'⟩
    change w.pos = u.pos at hpos'
    rw [← hpos'] at hU
    obtain ⟨W, U, rfl, hl, hU'⟩ := hU.drop
    have hpop : Stack.popN pops.toNat (W ++ U ++ T) = .ok (U ++ T) := by
      rw [List.append_assoc, Stack.popN_eq_ok, hp, ← hl, List.drop_left]
      exact ⟨by simp, rfl⟩
    rw [hpop]
    exact ih _ (v :: U) T w (.keep hv hU') hs

end Typed
end

end PegMachine
