import PegMachine.Proofs.Machine.Emulates
import PegMachine.Proofs.Semantics.Equations

/-! The code of each kind of expression emulates the walk of that kind, if the code of its operand
emulates the walk of the operand. -/
namespace PegMachine

variable {σ β : Type} {A : Activation σ} {S : Stack} {inner c : Code} {w : Walk σ Value}
  {Q : Stack → β → Prop}

theorem Code.seq_cons (i : Instr) (is : List Instr) : Code.seq (i :: is) = i.words ++ Code.seq is :=
  rfl

theorem Code.seq_nil : Code.seq [] = [] := rfl

/-- The value that a constant puts on the stack. -/
def Constant.value? : Constant → Option Value
  | .failed => some .failed
  | .undefined => some .undefined
  | .null => some .null
  | .emptyArray => some (.array [])
  | .string s => some (.string s)
  | .bound b => some (.bound b)
  | _ => none

/-- `k` is the number of a constant of the running program. -/
def Activation.Has (A : Activation σ) (k : UInt32) (c : Constant) : Prop :=
  A.env.program.constant? k = some c

theorem Activation.Has.push {k : UInt32} {x : Constant} {v : Value} (h : A.Has k x)
    (hv : x.value? = some v) : (Instr.push k).Moves A S (v :: S) := by
  refine Instr.moves_push ?_
  rw [Program.value, h]
  cases x <;> cases hv <;> rfl

theorem Activation.Has.expectation {k : UInt32} {e : Expectation} (h : A.Has k (.expectation e)) :
    A.env.program.expectation k = .ok e := by
  rw [Program.expectation, h]

theorem Activation.Has.string {k : UInt32} {t : String} (h : A.Has k (.string t)) :
    A.env.program.string k = .ok t := by
  rw [Program.string, h]

open Walk

theorem Emulates.silenced {w' : Value → Walk σ β} (hi : inner.Whole) (he : Computes A inner S w)
    (hk : ∀ v, Emulates A c (v :: S) (w' v) Q) :
    Emulates A (Instr.silenceOn.words ++ (inner ++ (Instr.silenceOff.words ++ c))) S
      (silenced w >>= w') Q := by
  unfold Walk.silenced
  simp only [bind_assoc, pure_bind]
  refine .silenceOn (.append hi he ?_)
  rintro S' v rfl
  exact .silenceOff (hk v)

namespace Computes

theorem named {name : String} {expected : UInt32} {report : Code} (hi : inner.Whole)
    (he : Computes A inner S w) (hx : A.Has expected (.expectation (.other name)))
    (hr : Code.branch (Test.words .isFailed) (Code.seq [.pop, .fail expected]) [] = .ok report) :
    Computes A (Code.seq [.silenceOn] ++ inner ++ Code.seq [.silenceOff] ++ report) S
      (silenced w >>= fun v => if v.isFailed then Walk.expecting (.other name) else pure v) := by
  simp only [Code.seq_cons, Code.seq_nil, List.append_assoc, List.nil_append] at hr ⊢
  refine .silenced hi he fun v => .ifFailed hr (fun _ => ?_) (fun _ => .nil rfl)
  rw [List.append_nil]
  exact .moves Instr.moves_pop (expecting hx.expectation)

theorem text {cut : Code} (hi : inner.Whole) (he : ∀ S, Computes A inner S w)
    (hc : Code.branch (Test.words .isMatched) (Code.seq [.text]) [] = .ok cut) :
    Computes A (Code.seq [.pushPos] ++ inner ++ cut ++ Code.seq [.nip]) S (do
      let p ← place
      let v ← w
      if v.isFailed then pure v
      else do
        let q ← place
        pure (.string (A.walkEnv.input.slice p q))) := by
  simp only [Code.seq_cons, Code.seq_nil, List.append_assoc, List.nil_append] at hc ⊢
  refine .pushPos fun p => .append hi (he _) ?_
  rintro S' v rfl
  refine .after (R := fun S' x => S' = x :: .pos p :: S) (Code.whole_branch hc) ?_ ?_
  · exact .ifMatched hc (fun _ => .text fun q => .nil rfl) (fun _ => .nil rfl)
  · rintro S' x rfl
    exact .moves Instr.moves_nip (.nil rfl)

theorem followedBy {undefined failed : UInt32} {answer : Code} (hi : inner.Whole)
    (he : ∀ S, Computes A inner S w) (hu : A.Has undefined .undefined) (hd : A.Has failed .failed)
    (ha : Code.branch (Test.words .isMatched) (Code.seq [.pop, .popPos, .push undefined])
      (Code.seq [.pop, .pop, .push failed]) = .ok answer) :
    Computes A (Code.seq [.pushPos, .silenceOn] ++ inner ++ Code.seq [.silenceOff] ++ answer) S (do
      let p ← place
      let v ← silenced w
      if v.isFailed then pure .failed
      else do
        seek p
        pure .undefined) := by
  simp only [Code.seq_cons, Code.seq_nil, List.append_assoc, List.nil_append] at ha ⊢
  refine .pushPos fun p => .silenced hi (he _) fun v => .ifMatched ha (fun _ => ?_) (fun _ => ?_)
  · exact .moves Instr.moves_pop (.popPos (.moves (hu.push rfl) (.nil rfl)))
  · exact .moves Instr.moves_pop (.moves Instr.moves_pop (.moves (hd.push rfl) (.nil rfl)))

theorem notFollowedBy {undefined failed : UInt32} {answer : Code} (hi : inner.Whole)
    (he : ∀ S, Computes A inner S w) (hu : A.Has undefined .undefined) (hd : A.Has failed .failed)
    (ha : Code.branch (Test.words .isFailed) (Code.seq [.pop, .pop, .push undefined])
      (Code.seq [.pop, .popPos, .push failed]) = .ok answer) :
    Computes A (Code.seq [.pushPos, .silenceOn] ++ inner ++ Code.seq [.silenceOff] ++ answer) S (do
      let p ← place
      let v ← silenced w
      if v.isFailed then pure .undefined
      else do
        seek p
        pure .failed) := by
  simp only [Code.seq_cons, Code.seq_nil, List.append_assoc, List.nil_append] at ha ⊢
  refine .pushPos fun p => .silenced hi (he _) fun v => .ifFailed ha (fun _ => ?_) (fun _ => ?_)
  · exact .moves Instr.moves_pop (.moves Instr.moves_pop (.moves (hu.push rfl) (.nil rfl)))
  · exact .moves Instr.moves_pop (.popPos (.moves (hd.push rfl) (.nil rfl)))

theorem optional {null : UInt32} {other : Code} (hi : inner.Whole) (he : Computes A inner S w)
    (hn : A.Has null .null)
    (ho : Code.branch (Test.words .isFailed) (Code.seq [.pop, .push null]) [] = .ok other) :
    Computes A (inner ++ other) S (do
      let v ← w
      pure (if v.isFailed then .null else v)) := by
  refine .append hi he ?_
  rintro S' v rfl
  rw [apply_ite pure]
  refine .ifFailed ho (fun _ => ?_) (fun _ => .nil rfl)
  exact .moves Instr.moves_pop (.moves (hn.push rfl) (.nil rfl))

/-- The rounds of a repetition. -/
theorem more {body : Code} (he : ∀ S, Computes A inner S w)
    (hm : Code.loop (Code.op .whileMatched) (Code.seq [.append] ++ inner) = .ok body)
    (vs : List Value) (v : Value) :
    Emulates A body (v :: .array vs :: S) (gather (fun _ => w) A.fuel vs v)
      fun S' ws => S' = .failed :: .array ws :: S := by
  refine Emulates.rounds hm (fun vs v => ?_) vs v
  rw [Code.seq_cons, Code.seq_nil, List.append_nil]
  exact .moves Instr.moves_append (he _)

theorem zeroOrMore {empty : UInt32} {body : Code} (hi : inner.Whole)
    (he : ∀ S, Computes A inner S w) (hy : A.Has empty .emptyArray)
    (hm : Code.loop (Code.op .whileMatched) (Code.seq [.append] ++ inner) = .ok body) :
    Computes A (Code.seq [.push empty] ++ inner ++ body ++ Code.seq [.pop]) S (do
      let v ← w
      let vs ← gather (fun _ => w) A.fuel [] v
      pure (.array vs)) := by
  simp only [Code.seq_cons, Code.seq_nil, List.append_assoc, List.nil_append]
  refine .moves (hy.push rfl) (.append hi (he _) ?_)
  rintro S' v rfl
  refine .append (Code.whole_loop hm) (more he hm [] v) ?_
  rintro S' vs rfl
  exact .moves Instr.moves_pop (.nil rfl)

theorem oneOrMore {empty failed : UInt32} {body rest : Code} (hi : inner.Whole)
    (he : ∀ S, Computes A inner S w) (hy : A.Has empty .emptyArray) (hd : A.Has failed .failed)
    (hm : Code.loop (Code.op .whileMatched) (Code.seq [.append] ++ inner) = .ok body)
    (hr : Code.branch (Test.words .isMatched) (body ++ Code.seq [.pop])
      (Code.seq [.pop, .pop, .push failed]) = .ok rest) :
    Computes A (Code.seq [.push empty] ++ inner ++ rest) S (do
      let v ← w
      if v.isFailed then pure v
      else do
        let vs ← gather (fun _ => w) A.fuel [] v
        pure (.array vs)) := by
  simp only [Code.seq_cons, Code.seq_nil, List.append_assoc, List.nil_append] at hr ⊢
  refine .moves (hy.push rfl) (.append hi (he _) ?_)
  rintro S' v rfl
  refine .ifMatched hr (fun _ => ?_) (fun hv => ?_)
  · refine .append (Code.whole_loop hm) (more he hm [] v) ?_
    rintro S' vs rfl
    exact .moves Instr.moves_pop (.nil rfl)
  · subst hv
    exact .moves Instr.moves_pop (.moves Instr.moves_pop (.moves (hd.push rfl) (.nil rfl)))

theorem bounded {min max : Option UInt32} {empty failed least most : UInt32}
    {next full body enough : Code} {again : Walk σ Value} (hi : inner.Whole)
    (he : ∀ S, Computes A inner S w) (hg : ∀ S, Computes A next S again)
    (hy : A.Has empty .emptyArray) (hd : A.Has failed .failed) (hl : A.Has least (.bound min))
    (hu : A.Has most (.bound max))
    (hm : Code.branch (Test.words .isFull) (Code.seq [.push failed]) next = .ok full)
    (hr : Code.loop (Code.op .whileMatched) (Code.seq [.append, .push most] ++ full) = .ok body)
    (ho : Code.branch (Test.words .isShort) (Code.seq [.pop, .push failed]) [] = .ok enough) :
    Computes A (Code.seq [.push empty] ++ inner ++ body ++ Code.seq [.pop, .push least] ++ enough)
      S (do
        let v ← w
        let vs ← gather (fun vs => if max.any fun n => n.toNat ≤ vs.length then pure .failed
          else again) A.fuel [] v
        pure (if min.any fun n => vs.length < n.toNat then .failed else .array vs)) := by
  simp only [Code.seq_cons, Code.seq_nil, List.append_assoc, List.nil_append] at hm hr ho ⊢
  refine .moves (hy.push rfl) (.append hi (he _) ?_)
  rintro S' v rfl
  refine .append (Code.whole_loop hr) (Emulates.rounds hr (fun vs v => ?_) [] v) ?_
  · -- the value is appended before the bound is looked at
    refine .moves Instr.moves_append (.moves (hu.push rfl) ?_)
    refine .test (max.any fun n => n.toNat ≤ (vs ++ [v]).length) hm (fun _ => rfl) ?_
    split
    · exact .moves (hd.push rfl) (.nil rfl)
    · exact hg _
  · rintro S' vs rfl
    refine .moves Instr.moves_pop (.moves (hl.push rfl) ?_)
    refine .test (min.any fun n => vs.length < n.toNat) ho (fun _ => rfl) ?_
    split
    · exact .moves Instr.moves_pop (.moves (hd.push rfl) (.nil rfl))
    · exact .nil rfl

/-- A later attempt behind a delimiter. -/
theorem delimited {failed : UInt32} {delimiter back next : Code} {d : Walk σ Value}
    (hi : inner.Whole) (he : ∀ S, Computes A inner S w) (hd : delimiter.Whole)
    (hde : ∀ S, Computes A delimiter S d) (hf : A.Has failed .failed)
    (hb : Code.branch (Test.words .isFailed) (Code.seq [.pop, .popPos, .push failed])
      (Code.seq [.nip]) = .ok back)
    (hn : Code.branch (Test.words .isMatched) (Code.seq [.pop] ++ inner ++ back)
      (Code.seq [.nip]) = .ok next) :
    Computes A (Code.seq [.pushPos] ++ delimiter ++ next) S (do
      let p ← place
      let v ← d
      if v.isFailed then pure v
      else do
        let v ← w
        if v.isFailed then do
          seek p
          pure .failed
        else pure v) := by
  simp only [Code.seq_cons, Code.seq_nil, List.append_assoc, List.nil_append] at hb hn ⊢
  refine .pushPos fun p => .append hd (hde _) ?_
  rintro S' v rfl
  refine .ifMatched hn (fun _ => ?_) (fun _ => .moves Instr.moves_nip (.nil rfl))
  refine .moves Instr.moves_pop (.append hi (he _) ?_)
  rintro S' v rfl
  refine .ifFailed hb (fun _ => ?_) (fun _ => .moves Instr.moves_nip (.nil rfl))
  exact .moves Instr.moves_pop (.popPos (.moves (hf.push rfl) (.nil rfl)))

end Computes

variable {sp : ℤ} {s : Scope} {ls : Labels Value} {code : String}

theorem Numbers.has {k : UInt32} {x : Constant} (h : Numbers A.env.program.consts k x)
    (hK : A.env.program.consts.length ≤ UInt32.size) : A.Has k x :=
  h hK

/-- The function of a call, with the labels in scope for its parameters. -/
theorem Activation.Has.function {f : UInt32} (h : A.Has f (.function ⟨s.names, code⟩))
    (hs : s.Reads sp S ls) : A.env.program.function f = .ok ⟨ls.names, code⟩ := by
  have hn := Labels.Related.names_eq hs
  rw [Program.function, h, hn]

section

variable (hK : A.env.program.consts.length ≤ UInt32.size)

include hK

theorem LiteralCode.computes {value : String} {ignoreCase : Bool}
    (hc : LiteralCode A.env.program.consts value ignoreCase c) :
    Computes A c S (Walk.literal A.walkEnv value ignoreCase) := by
  cases hc with
  | empty hv ht =>
    rw [Walk.literal, if_pos hv]
    exact .moves ((ht.has hK).push rfl) (.nil rfl)
  | @folded text expected n c hv ht hx hn hc =>
    have hstring := (ht.has hK).string
    have hexp := (hx.has hK).expectation
    rw [Walk.literal, hv, ← hn]
    simp only [Code.seq_cons, Code.seq_nil, List.append_nil] at hc
    simp only [reduceIte, Bool.false_eq_true]
    refine Emulates.look hc (fun p => ?_) (Computes.accept n) (Computes.expecting hexp)
    rw [Test.holds, hstring]
    rfl
  | @exact text expected c hv ht hx hc =>
    have hstring := (ht.has hK).string
    have hexp := (hx.has hK).expectation
    rw [Walk.literal, hv]
    simp only [Code.seq_cons, Code.seq_nil, List.append_nil] at hc
    simp only [reduceIte, Bool.false_eq_true]
    refine Emulates.look hc (fun p => ?_) (Computes.acceptString hstring) (Computes.expecting hexp)
    rw [Test.holds, hstring]
    rfl

/-- One character that the class of a constant accepts. -/
theorem Computes.one {t : Test} {expected : UInt32} {e : Expectation} {test : Char → Bool}
    (ht : ∀ p, t.holds A.env p S = .ok (A.env.input[p]?.any test, S))
    (hx : Numbers A.env.program.consts expected (.expectation e))
    (hc : Code.branch t.words (Code.seq [.acceptN 1]) (Code.seq [.fail expected]) = .ok c) :
    Computes A c S (one A.walkEnv test e) := by
  have hexp := (hx.has hK).expectation
  simp only [Code.seq_cons, Code.seq_nil, List.append_nil] at hc
  exact Emulates.look hc ht (Computes.accept 1) (Computes.expecting hexp)

theorem GuardCode.computes {negated : Bool} {ctx : Context}
    (hc : GuardCode A.env.program.consts negated code ctx s c) (hs : s.Reads ctx.sp S ls) :
    Computes A c S (Walk.guard A.walkEnv (!negated) code ls) := by
  obtain ⟨hf, hu, hd, hc, ha⟩ := hc
  have hfun := (hf.has hK).function hs
  simp only [Code.seq_cons, Code.seq_nil, List.append_assoc, List.nil_append] at ha ⊢
  refine .callHere hc hfun hs (Nat.zero_le _) fun v => ?_
  refine .test v.isTruthy ha (fun _ => rfl) ?_
  have hu := fun S => (hu.has hK).push (S := S) rfl
  have hd := fun S => (hd.has hK).push (S := S) rfl
  cases negated with
  | true =>
    cases v.isTruthy with
    | true => exact .moves Instr.moves_pop (.moves (hd _) (.nil rfl))
    | false => exact .moves Instr.moves_pop (.moves (hu _) (.nil rfl))
  | false =>
    cases v.isTruthy with
    | true => exact .moves Instr.moves_pop (.moves (hu _) (.nil rfl))
    | false => exact .moves Instr.moves_pop (.moves (hd _) (.nil rfl))

end

/-- An action on the value of an operand that is no sequence of elements. -/
theorem Computes.action {e : Expr} {f : UInt32} {call answer : Code} (hi : inner.Whole)
    (he : ∀ S, Computes A inner S w)
    (hf : A.Has f (.function ⟨Labels.names (e.bind (sp + 2) []), code⟩))
    (hc : Code.call f 1 (e.bind (sp + 2) []) (sp + 2) = .ok call)
    (ha : Code.branch (Test.words .isMatched) (Code.seq [.reportSaved 1] ++ call) [] = .ok answer) :
    Computes A (Code.seq [.pushPos] ++ inner ++ answer ++ Code.seq [.nip]) S (do
      let p ← place
      let v ← w
      if v.isFailed then pure v
      else Walk.call A.walkEnv p code (e.bind v [])) := by
  simp only [Code.seq_cons, Code.seq_nil, List.append_assoc, List.nil_append] at ha ⊢
  refine .pushPos fun p => .append hi (he _) ?_
  rintro S' v rfl
  -- the labels of the operand all stand for its value, which is on top
  have hnil : Scope.Reads (sp + 1) (.pos p :: S) [] [] := .nil
  have hs := hnil.bind v e
  rw [Int.add_assoc] at hs
  refine .after (R := fun S' x => S' = x :: .pos p :: S) (Code.whole_branch ha) ?_ ?_
  · refine .ifMatched ha (fun _ => ?_) (fun _ => .nil rfl)
    rw [← List.append_nil call, ← bind_pure (Walk.call _ _ _ _)]
    exact .callSaved rfl hc (hf.function hs) hs (by simp) fun v => .nil rfl
  · rintro S' x rfl
    exact .moves Instr.moves_nip (.nil rfl)

theorem CollectCode.computes {action : Option String} {p : ℕ} {vs : List Value}
    (hK : A.env.program.consts.length ≤ UInt32.size)
    (hc : CollectCode A.env.program.consts vs.length sp s action c)
    (hs : s.Reads sp (vs.reverse ++ .pos p :: S) ls) :
    Emulates A c (vs.reverse ++ .pos p :: S) (finish A.walkEnv p action vs ls)
      fun S' v => S' = v :: S := by
  cases hc with
  | array hn =>
    simp only [Code.seq_cons, Code.seq_nil]
    refine .moves (Instr.moves_wrap (by simpa using hn)) ?_
    rw [List.reverse_reverse]
    exact .moves Instr.moves_nip (.nil rfl)
  | action hn hf hc =>
    simp only [Code.seq_cons, Code.seq_nil, List.append_assoc, List.nil_append]
    have hp : (vs.reverse ++ .pos p :: S)[vs.length]? = some (.pos p) := by
      simp
    rw [finish, ← bind_pure (Walk.call _ _ _ _)]
    refine .callSaved (by rwa [hn]) hc ((hf.has hK).function hs) hs (by simp) fun v => ?_
    rw [List.drop_left' (by simp)]
    exact .moves Instr.moves_nip (.nil rfl)

theorem DropCode.whole {n : ℕ} (hc : DropCode n c) : c.Whole := by
  cases hc <;> exact Code.whole_seq _

/-- The values of the elements before a failure are dropped. -/
theorem DropCode.computes {vs : List Value} (hc : DropCode vs.length c) :
    Emulates A c (vs ++ S) (pure ()) fun S' _ => S' = S := by
  generalize hn : vs.length = n at hc
  cases hc with
  | one =>
    obtain ⟨v, rfl⟩ := List.length_eq_one_iff.mp hn
    exact .moves Instr.moves_pop (.nil rfl)
  | many hk =>
    exact .moves (Instr.moves_popN (hk.trans hn.symm)) (.nil rfl)

end PegMachine
