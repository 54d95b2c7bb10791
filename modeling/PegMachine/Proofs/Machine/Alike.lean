import PegMachine.Proofs.Semantics.Nodes

/-! Two machines side by side. Their programs may number constants and rules in different ways, but
they have the same host, limits and input: code that names the same constants and rules runs in both
step by step in the same way, so that not even a limit tells one run from the other. -/
namespace PegMachine

variable {σ : Type} {A B : Activation σ} {i j : Instr} {a b a' b' yes no yes' no' : Code}
  {t u : Test} {f k : UInt32}

/-- The two activations differ in their programs and in what runs their rules. -/
structure Activation.Beside (A B : Activation σ) : Prop where
  host : A.env.host = B.env.host
  limits : A.env.limits = B.env.limits
  input : A.env.input = B.env.input
  fuel : A.fuel = B.fuel

/-- Whether the instruction names a constant or a rule. -/
def Instr.refers : Instr → Bool
  | .push _ | .acceptString _ | .fail _ | .rule _ => true
  | _ => false

/-- Whether the test names a constant. -/
def Test.refers : Test → Bool
  | .string _ | .folded _ | .charClass _ => true
  | _ => false

/-- Wherever they stand and from every stack, `a` on the one side and `b` on the other run in the same
way. -/
structure Alike (A B : Activation σ) (a b : Code) : Prop where
  left : a.Whole
  right : b.Whole
  exec_eq (m n : ℕ) (S : Stack) : A.exec m a S = B.exec n b S

/-- The two instructions do the same. -/
def Instr.Alike (A B : Activation σ) (i j : Instr) : Prop :=
  ∀ S, i.run A.env A.rule S = j.run B.env B.rule S

/-- The two tests have the same answers. -/
def Test.Alike (A B : Activation σ) (t u : Test) : Prop :=
  ∀ p S, t.holds A.env p S = u.holds B.env p S

namespace Instr.Alike

theorem symm (h : Instr.Alike A B i j) : Instr.Alike B A j i := fun S => (h S).symm

theorem push {x : Constant} {v : Value} (hi : A.Has f x) (hj : B.Has k x) (hv : x.value? = some v) :
    Instr.Alike A B (.push f) (.push k) := by
  intro S
  funext s
  rw [hi.push hv s, hj.push hv s]

theorem fail {x : Expectation} (hi : A.Has f (.expectation x)) (hj : B.Has k (.expectation x)) :
    Instr.Alike A B (.fail f) (.fail k) := by
  intro S
  rw [Instr.run, Instr.run, hi.expectation, hj.expectation]

theorem acceptString {x : String} (hi : A.Has f (.string x)) (hj : B.Has k (.string x)) :
    Instr.Alike A B (.acceptString f) (.acceptString k) := by
  intro S
  rw [Instr.run, Instr.run, hi.string, hj.string]

theorem rule (h : A.rule f.toNat = B.rule k.toNat) : Instr.Alike A B (.rule f) (.rule k) := by
  intro S
  rw [Instr.run, Instr.run, h]

/-- Dropping one value is dropping that number of values. -/
theorem pop_popN (hk : k.toNat = 1) : Instr.Alike A B .pop (.popN k) := by
  intro S
  rw [Instr.run, Instr.run, hk]
  cases S <;> rfl

theorem self (h : A.Beside B) (hi : i.refers = false) : Instr.Alike A B i i := by
  intro S
  cases i with
  | push | acceptString | fail | rule => cases hi
  | text | acceptN => rw [Instr.run, Instr.run, h.input]
  | _ => rfl

end Instr.Alike

namespace Test.Alike

theorem string {x : String} (h : A.Beside B) (ht : A.Has f (.string x)) (hu : B.Has k (.string x)) :
    Test.Alike A B (.string f) (.string k) := by
  intro p S
  rw [Test.holds, Test.holds, ht.string, hu.string, h.input]

theorem folded {x : String} (h : A.Beside B) (ht : A.Has f (.string x)) (hu : B.Has k (.string x)) :
    Test.Alike A B (.folded f) (.folded k) := by
  intro p S
  rw [Test.holds, Test.holds, ht.string, hu.string, h.input]

theorem charClass {x : CharClass} (h : A.Beside B) (ht : A.Has f (.charClass x))
    (hu : B.Has k (.charClass x)) : Test.Alike A B (.charClass f) (.charClass k) := by
  intro p S
  rw [Test.holds, Test.holds, Program.charClass, Program.charClass, ht, hu, h.input]

theorem self (h : A.Beside B) (ht : t.refers = false) : Test.Alike A B t t := by
  intro p S
  cases t with
  | string | folded | charClass => cases ht
  | any => rw [Test.holds, Test.holds, h.input]
  | _ => rfl

end Test.Alike

namespace Alike

theorem nil : Alike A B [] [] := by
  constructor
  case left => exact Code.whole_nil
  case right => exact Code.whole_nil
  case exec_eq =>
    intro m n S
    rw [Activation.exec_nil, Activation.exec_nil]

theorem append (ha : Alike A B a b) (hb : Alike A B a' b') : Alike A B (a ++ a') (b ++ b') := by
  constructor
  case left => exact ha.left.append hb.left
  case right => exact ha.right.append hb.right
  case exec_eq =>
    intro m n S
    rw [Activation.exec_append ha.left, Activation.exec_append ha.right, ha.exec_eq m n S]
    exact bind_congr fun S' => hb.exec_eq _ _ S'

theorem seq {is js : List Instr} (h : A.Beside B) (hi : List.Forall₂ (Instr.Alike A B) is js) :
    Alike A B (Code.seq is) (Code.seq js) := by
  induction hi with
  | nil => exact nil
  | @cons i j is js hi _ ih =>
    have hwords : Alike A B i.words j.words := by
      constructor
      case left => exact Code.whole_instr i
      case right => exact Code.whole_instr j
      case exec_eq =>
        intro m n S
        rw [Activation.exec_instr, Activation.exec_instr, h.limits, hi S]
    exact hwords.append ih

/-- Instructions that name nothing. -/
theorem same {is : List Instr} (h : A.Beside B) (hi : is.any Instr.refers = false) :
    Alike A B (Code.seq is) (Code.seq is) := by
  rw [List.any_eq_false] at hi
  refine .seq h (List.forall₂_same.mpr fun i hm => .self h ?_)
  simpa using hi i hm

/-- Instructions that name nothing, and one more. -/
theorem last (h : A.Beside B) (is : List Instr) (hn : is.any Instr.refers = false)
    (hi : Instr.Alike A B i j) : Alike A B (Code.seq (is ++ [i])) (Code.seq (is ++ [j])) := by
  have hseq (k : Instr) : Code.seq (is ++ [k]) = Code.seq is ++ Code.seq [k] := List.flatMap_append
  rw [hseq, hseq]
  exact (same h hn).append (seq h (.cons hi .nil))

theorem branch (h : A.Beside B) (ha : Code.branch t.words yes no = .ok a)
    (hb : Code.branch u.words yes' no' = .ok b) (ht : Test.Alike A B t u) (hy : Alike A B yes yes')
    (hn : Alike A B no no') : Alike A B a b := by
  constructor
  case left => exact Code.whole_branch ha
  case right => exact Code.whole_branch hb
  case exec_eq =>
    intro m n S
    obtain ⟨j, k, hx⟩ := Activation.exec_branch ha A m S
    obtain ⟨j', k', hx'⟩ := Activation.exec_branch hb B n S
    rw [hx, hx', h.limits]
    refine bind_congr fun _ => bind_congr fun s => ?_
    rw [ht s.pos S]
    refine bind_congr fun x => ?_
    obtain ⟨answer, S'⟩ := x
    dsimp only
    rw [hy.exec_eq j j' S', hn.exec_eq k k' S']

theorem loop (h : A.Beside B) (ha : Code.loop (Code.op .whileMatched) a' = .ok a)
    (hb : Code.loop (Code.op .whileMatched) b' = .ok b) (hc : Alike A B a' b') : Alike A B a b := by
  constructor
  case left => exact Code.whole_loop ha
  case right => exact Code.whole_loop hb
  case exec_eq =>
    intro m n S
    obtain ⟨j, hx⟩ := Activation.exec_loop ha A m S
    obtain ⟨k, hx'⟩ := Activation.exec_loop hb B n S
    have hbody : A.exec j a' = B.exec k b' := funext fun S' => hc.exec_eq j k S'
    rw [hx, hx', h.limits, h.fuel, hbody]

theorem call {fn : ActionFn} {pops : ℕ} {s : Scope} {sp : ℤ} (h : A.Beside B)
    (ha : Code.call f pops s sp = .ok a) (hb : Code.call k pops s sp = .ok b)
    (hf : A.Has f (.function fn)) (hk : B.Has k (.function fn)) : Alike A B a b := by
  constructor
  case left => exact Code.whole_call ha
  case right => exact Code.whole_call hb
  case exec_eq =>
    intro m n S
    obtain ⟨slots, w, x, ho, hw, hx, rfl⟩ := Code.call_words ha
    obtain ⟨slots', w', x', ho', hw', hx', rfl⟩ := Code.call_words hb
    obtain rfl := Except.ok.inj (ho.symm.trans ho')
    have hask (args : List Value) : Run.callHost A.env f args = Run.callHost B.env k args := by
      have hA : A.env.program.function f = .ok fn := by rw [Program.function, hf]
      have hB : B.env.program.function k = .ok fn := by rw [Program.function, hk]
      unfold Run.callHost
      rw [hA, hB, h.host, h.input]
    rw [Activation.exec_call hx, Activation.exec_call hx', h.limits, hw, hw']
    refine bind_congr fun _ => bind_congr fun args => ?_
    rw [hask]

end Alike
end PegMachine
