import PegMachine.Compile.Expr
import PegMachine.Proofs.Code.Reading

/-! What a part of a compilation makes. The pool only grows, so that what holds of a constant's
number when it is given out can be said of the constants of the finished program. -/
namespace PegMachine

/-- The constants of `p` keep their numbers in `q`, all of `q` have one, and none has two. -/
structure Pool.Grows (p q : Pool) : Prop where
  keeps : p.consts <+: q.consts
  size : p.size ≤ UInt32.size → q.size ≤ UInt32.size
  nodup : p.consts.Nodup → q.consts.Nodup

namespace Pool.Grows

variable {p q r : Pool}

theorem refl (p : Pool) : p.Grows p := ⟨List.prefix_rfl, id, id⟩

theorem trans (h : p.Grows q) (h' : q.Grows r) : p.Grows r :=
  ⟨h.keeps.trans h'.keeps, fun hp => h'.size (h.size hp), fun hp => h'.nodup (h.nodup hp)⟩

end Pool.Grows

/-- `i` is the number of `c` among the constants `K`, unless there are too many to be numbered. -/
def Numbers (K : List Constant) (i : UInt32) (c : Constant) : Prop :=
  K.length ≤ UInt32.size → K[i.toNat]? = some c

namespace Compile

variable {α β : Type} {K : List Constant} {m : Compile α} {f : α → Compile β} {Q Q' : α → Prop}
  {R : β → Prop} {E : CompileError → Prop}

theorem bind_eq_ok {p q : Pool} {b : β} :
    (m >>= f) p = .ok (b, q) ↔ ∃ a r, m p = .ok (a, r) ∧ f a r = .ok (b, q) := by
  change (m p >>= fun x => f x.1 x.2) = _ ↔ _
  simp only [except_bind_eq_ok, Prod.exists]

theorem bind_eq_error {p : Pool} {x : CompileError} :
    (m >>= f) p = .error x ↔
      m p = .error x ∨ ∃ a r, m p = .ok (a, r) ∧ f a r = .error x := by
  change (m p >>= fun x => f x.1 x.2) = _ ↔ _
  cases m p with
  | error e => simp [bind, Except.bind]
  | ok y =>
    obtain ⟨a, r⟩ := y
    simp [bind, Except.bind]

theorem bind_congr {f' : α → Compile β} (h : ∀ p a q, m p = .ok (a, q) → f a q = f' a q) :
    m >>= f = m >>= f' := by
  funext p
  change (m p >>= fun x => f x.1 x.2) = (m p >>= fun x => f' x.1 x.2)
  cases hm : m p with
  | error e => rfl
  | ok x => exact h p x.1 x.2 hm

/-- Whatever `m` returns satisfies `Q` in a program whose constants `K` begin with the pool that `m`
leaves. -/
def Yields (K : List Constant) (m : Compile α) (Q : α → Prop) : Prop :=
  ∀ p a q, m p = .ok (a, q) → p.Grows q ∧ (q.consts <+: K → Q a)

namespace Yields

theorem pure {a : α} (h : Q a) : Yields K (pure a) Q := by
  intro p b q hr
  obtain ⟨rfl, rfl⟩ := Prod.mk.inj (Except.ok.inj hr)
  exact ⟨.refl p, fun _ => h⟩

/-- What `m` returns may be used about the rest only in the end: the rest grows the pool anyhow. -/
theorem bind (hm : Yields K m Q) (hf : ∀ a, Yields K (f a) fun b => Q a → R b) :
    Yields K (m >>= f) R := by
  intro p b q hr
  obtain ⟨a, r, ha, hb⟩ := bind_eq_ok.mp hr
  obtain ⟨hpr, hQ⟩ := hm p a r ha
  obtain ⟨hrq, hR⟩ := hf a r b q hb
  exact ⟨hpr.trans hrq, fun hK => hR hK (hQ (hrq.keeps.trans hK))⟩

theorem mono (hm : Yields K m Q) (h : ∀ a, Q a → Q' a) : Yields K m Q' := by
  intro p a q hr
  obtain ⟨hpq, hQ⟩ := hm p a q hr
  exact ⟨hpq, fun hK => h a (hQ hK)⟩

end Yields

theorem yields_lift (x : Except CompileError α) :
    Yields K (liftM x : Compile α) fun a => x = .ok a := by
  intro p a q hr
  cases x with
  | error e => cases hr
  | ok b =>
    obtain ⟨rfl, rfl⟩ := Prod.mk.inj (Except.ok.inj hr)
    exact ⟨.refl p, fun _ => rfl⟩

theorem yields_throw (e : CompileError) : Yields K (throw e : Compile α) Q := by
  intro p a q hr
  cases hr

theorem yields_intern (c : Constant) :
    Yields K (intern c) fun i => Numbers K i c := by
  intro p i q hr
  change p.intern c = _ at hr
  unfold Pool.intern at hr
  split at hr
  · next n hn =>
    obtain ⟨rfl, rfl⟩ := Prod.mk.inj (Except.ok.inj hr)
    refine ⟨.refl p, fun hK hl => ?_⟩
    obtain ⟨hlt, hc, -⟩ := List.findIdx?_eq_some_iff_getElem.mp hn
    have hnK : n < UInt32.size := by
      have := hK.length_le
      omega
    obtain ⟨r, rfl⟩ := hK
    rw [UInt32.toNat_ofNat_of_lt' hnK, List.getElem?_append_left hlt, List.getElem?_eq_getElem hlt,
      beq_iff_eq.mp hc]
  · next hn =>
    obtain ⟨i, hi, hr⟩ := except_bind_eq_ok.mp hr
    obtain ⟨rfl, rfl⟩ := Prod.mk.inj (Except.ok.inj hr)
    have hlt : p.consts.length < UInt32.size := by
      unfold operand at hi
      split at hi
      · assumption
      · cases hi
    refine ⟨⟨List.prefix_append _ _, fun _ => ?_, fun hp => ?_⟩, fun hK _ => ?_⟩
    · simp only [Pool.size, List.length_append, List.length_singleton]
      omega
    · simpa using hp.concat (List.idxOf?_eq_none_iff.mp hn)
    · obtain ⟨r, rfl⟩ := hK
      rw [operand_toNat hi]
      simp

theorem yields_function (s : Scope) (code : String) :
    Yields K (function s code) fun i => Numbers K i (.function ⟨s.names, code⟩) :=
  yields_intern _

theorem yields_branch (t : Test) (yes no : Code) :
    Yields K (branch t yes no) fun br => Code.branch t.words yes no = .ok br :=
  yields_lift _

theorem yields_loop (body : Code) :
    Yields K (loop body) fun lp => Code.loop (Code.op .whileMatched) body = .ok lp :=
  yields_lift _

/-- Where `m` fails, it fails for a reason that satisfies `E`. -/
def Throws (m : Compile α) (E : CompileError → Prop) : Prop :=
  ∀ p e, m p = .error e → E e

namespace Throws

theorem pure (a : α) : Throws (pure a) E := by
  intro p e hr
  cases hr

theorem bind (hm : Throws m E) (hf : ∀ a, Throws (f a) E) : Throws (m >>= f) E := by
  intro p e hr
  rcases bind_eq_error.mp hr with hr | ⟨a, q, -, hr⟩
  · exact hm p e hr
  · exact hf a q e hr

theorem lift {x : Except CompileError α} (h : ∀ e, x = .error e → E e) :
    Throws (liftM x : Compile α) E := by
  intro p e hr
  cases x with
  | ok a => cases hr
  | error e' => exact h e (by rw [Except.error.inj hr])

end Throws

end Compile
end PegMachine
