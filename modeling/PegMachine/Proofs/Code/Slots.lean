import PegMachine.Proofs.Code.Balance
import PegMachine.Proofs.Compile.Yields

/-! Typed code. A stack of slots foresees what the places of the stack are for, and each piece of code
leads from one such stack to another. Silencing is not an instruction of typed code: it begins and
ends around a piece of it. -/
namespace PegMachine

/-- What a place on the stack is for. -/
inductive Slot where
  /-- A place in the input. -/
  | place
  /-- A value that functions may be given. -/
  | value
  /-- Such a value, or the mark of failure. -/
  | result
  /-- A bound on a repetition. -/
  | bound
  deriving DecidableEq, Repr

/-- The slot for a constant that can be pushed. -/
def Constant.slot? : Constant → Option Slot
  | .failed => some .result
  | .undefined | .null | .emptyArray | .string _ => some .value
  | .bound _ => some .bound
  | .charClass _ | .expectation _ | .function _ => none

/-- What a call asks of its function, the slots of the stack, and those that its arguments are read
from. -/
abbrev Calling := ActionFn → List Slot → Code → Prop

variable {K : List Constant} {ok : Calling} {a b c yes no br body lp : Code}
  {Γ Δ Θ : List Slot}

/-- `i.Turns K Γ Δ`: the instruction finds slots `Γ` and leaves `Δ`. -/
inductive Instr.Turns (K : List Constant) : Instr → List Slot → List Slot → Prop
  | push {k : UInt32} {x : Constant} {u : Slot} {Γ : List Slot} (hk : Numbers K k x)
      (hu : x.slot? = some u) : Turns K (.push k) Γ (u :: Γ)
  | pushPos {Γ : List Slot} : Turns K .pushPos Γ (.place :: Γ)
  | pop {u : Slot} {Γ : List Slot} : Turns K .pop (u :: Γ) Γ
  | popPos {Γ : List Slot} : Turns K .popPos (.place :: Γ) Γ
  | popN {n : UInt32} {Δ Γ : List Slot} (hn : n.toNat = Δ.length) : Turns K (.popN n) (Δ ++ Γ) Γ
  | nip {u u' : Slot} {Γ : List Slot} : Turns K .nip (u :: u' :: Γ) (u :: Γ)
  | append {Γ : List Slot} : Turns K .append (.value :: .value :: Γ) (.value :: Γ)
  | wrap {n : UInt32} {m : ℕ} {Γ : List Slot} (hn : n.toNat = m) :
      Turns K (.wrap n) (List.replicate m .value ++ Γ) (.value :: Γ)
  | text {u : Slot} {Γ : List Slot} : Turns K .text (u :: .place :: Γ) (.value :: .place :: Γ)
  | acceptN {n : UInt32} {Γ : List Slot} : Turns K (.acceptN n) Γ (.value :: Γ)
  | fail {e : UInt32} {Γ : List Slot} : Turns K (.fail e) Γ (.result :: Γ)
  | rule {r : UInt32} {Γ : List Slot} : Turns K (.rule r) Γ (.result :: Γ)

/-- The instructions, one after the other, find slots `Γ` and leave `Δ`. -/
def Instr.Carries (K : List Constant) : List Instr → List Slot → List Slot → Prop
  | [], Γ, Δ => Γ = Δ
  | i :: is, Γ, Δ => ∃ Θ, i.Turns K Γ Θ ∧ Carries K is Θ Δ

/-- `i.Reports Γ`: the instruction says where the text begins that the next call reports on, and finds
a place of the input there. -/
inductive Instr.Reports : Instr → List Slot → Prop
  | here {Γ : List Slot} : Reports .reportHere Γ
  | saved {k : UInt32} {Γ : List Slot} (hk : Γ[k.toNat]? = some .place) : Reports (.reportSaved k) Γ

/-- `t.Turns Γ yes no`: the test finds slots `Γ` and leaves `yes` or `no`, with its answer. It may tell
a value from the mark of failure. -/
inductive Test.Turns : Test → List Slot → List Slot → List Slot → Prop
  | isTrue {u : Slot} {Γ : List Slot} : Turns .isTrue (u :: Γ) (u :: Γ) (u :: Γ)
  | isFailed {Γ : List Slot} : Turns .isFailed (.result :: Γ) (.result :: Γ) (.value :: Γ)
  | isMatched {Γ : List Slot} : Turns .isMatched (.result :: Γ) (.value :: Γ) (.result :: Γ)
  | isShort {u : Slot} {Γ : List Slot} : Turns .isShort (.bound :: u :: Γ) (u :: Γ) (u :: Γ)
  | isFull {u : Slot} {Γ : List Slot} : Turns .isFull (.bound :: u :: Γ) (u :: Γ) (u :: Γ)
  | any {Γ : List Slot} : Turns .any Γ Γ Γ
  | string {k : UInt32} {Γ : List Slot} : Turns (.string k) Γ Γ Γ
  | folded {k : UInt32} {Γ : List Slot} : Turns (.folded k) Γ Γ Γ
  | charClass {k : UInt32} {Γ : List Slot} : Turns (.charClass k) Γ Γ Γ

/-- `Typed K ok c Γ Δ`: every path through the code leads from slots `Γ` to slots `Δ`. Each silencing
is undone where it has begun, a text is taken only where it has been found, and a call follows what it
is to report from. -/
inductive Typed (K : List Constant) (ok : Calling) : Code → List Slot → List Slot → Prop
  | nil (Γ : List Slot) : Typed K ok [] Γ Γ
  /-- A value is a result. -/
  | widen {c : Code} {Γ Δ : List Slot} (hc : Typed K ok c (.result :: Γ) Δ) :
      Typed K ok c (.value :: Γ) Δ
  | instr {i : Instr} {c : Code} {Γ Δ Θ : List Slot} (hi : i.Turns K Γ Δ) (hc : Typed K ok c Δ Θ) :
      Typed K ok (i.words ++ c) Γ Θ
  | silenced {inner c : Code} {Γ Δ Θ : List Slot} (hi : Typed K ok inner Γ Δ)
      (hc : Typed K ok c Δ Θ) :
      Typed K ok (Instr.silenceOn.words ++ (inner ++ (Instr.silenceOff.words ++ c))) Γ Θ
  | branch {t : Test} {yes no br c : Code} {Γ Γyes Γno Δ Θ : List Slot}
      (hb : Code.branch t.words yes no = .ok br) (ht : t.Turns Γ Γyes Γno)
      (hy : Typed K ok yes Γyes Δ) (hn : Typed K ok no Γno Δ) (hc : Typed K ok c Δ Θ) :
      Typed K ok (br ++ c) Γ Θ
  | take {k : UInt32} {no br c : Code} {Γ Θ : List Slot}
      (hb : Code.branch (Test.words (.string k)) (Code.seq [.acceptString k]) no = .ok br)
      (hn : Typed K ok no Γ (.result :: Γ)) (hc : Typed K ok c (.result :: Γ) Θ) :
      Typed K ok (br ++ c) Γ Θ
  | loop {body lp c : Code} {Γ Θ : List Slot}
      (hl : Code.loop (Code.op .whileMatched) body = .ok lp)
      (hb : Typed K ok body (.value :: Γ) (.result :: Γ)) (hc : Typed K ok c (.result :: Γ) Θ) :
      Typed K ok (lp ++ c) (.result :: Γ) Θ
  | call {i : Instr} {f pops n : UInt32} {slots c : Code} {fn : ActionFn} {Γ Δ Θ : List Slot}
      (hi : i.Reports (Δ ++ Γ)) (hf : Numbers K f (.function fn)) (hn : n.toNat = slots.length)
      (hp : pops.toNat = Δ.length) (hok : ok fn (Δ ++ Γ) slots) (hc : Typed K ok c (.value :: Γ) Θ) :
      Typed K ok (i.words ++ ((Opcode.call.word :: f :: pops :: n :: slots) ++ c)) (Δ ++ Γ) Θ

namespace Typed

theorem append (ha : Typed K ok a Γ Δ) (hb : Typed K ok b Δ Θ) : Typed K ok (a ++ b) Γ Θ := by
  induction ha with
  | nil => exact hb
  | widen _ ih => exact .widen (ih hb)
  | instr hi _ ih =>
    rw [List.append_assoc]
    exact .instr hi (ih hb)
  | silenced hi _ _ ih =>
    simp only [List.append_assoc]
    exact .silenced hi (ih hb)
  | branch hbr ht hy hn _ _ _ ih =>
    rw [List.append_assoc]
    exact .branch hbr ht hy hn (ih hb)
  | take hbr hn _ _ ih =>
    rw [List.append_assoc]
    exact .take hbr hn (ih hb)
  | loop hl hbody _ _ ih =>
    rw [List.append_assoc]
    exact .loop hl hbody (ih hb)
  | call hi hf hn hp hok _ ih =>
    simp only [List.append_assoc]
    exact .call hi hf hn hp hok (ih hb)

/-- Where a value is left, a result is. -/
theorem result (h : Typed K ok c Γ (.value :: Δ)) : Typed K ok c Γ (.result :: Δ) := by
  have := h.append (.widen (.nil _))
  rwa [List.append_nil] at this

theorem seq {is : List Instr} (hl : Instr.Carries K is Γ Δ) : Typed K ok (Code.seq is) Γ Δ := by
  induction is generalizing Γ with
  | nil =>
    obtain rfl : Γ = Δ := hl
    exact .nil Γ
  | cons i is ih =>
    obtain ⟨Θ, hi, hl⟩ := hl
    exact .instr hi (ih hl)

theorem one {i : Instr} (hi : i.Turns K Γ Δ) : Typed K ok (Code.seq [i]) Γ Δ :=
  .seq ⟨Δ, hi, rfl⟩

/-- A piece of code that is silenced as a whole. -/
theorem silence {inner : Code} (hi : Typed K ok inner Γ Δ) :
    Typed K ok (Code.seq [.silenceOn] ++ inner ++ Code.seq [.silenceOff]) Γ Δ := by
  have hw (i : Instr) : Code.seq [i] = i.words := List.append_nil _
  have h := silenced hi (.nil Δ)
  rwa [List.append_nil, ← List.append_assoc, ← hw, ← hw] at h

/-- A piece of code that is silenced as a whole, above the place where it starts. -/
theorem look {inner : Code} (hi : Typed K ok inner (.place :: Γ) Δ) :
    Typed K ok (Code.seq [.pushPos, .silenceOn] ++ inner ++ Code.seq [.silenceOff]) Γ Δ := by
  have h := (Typed.one .pushPos).append hi.silence
  rw [← List.append_assoc, ← List.append_assoc] at h
  exact h

theorem test {t : Test} {Γyes Γno : List Slot} (hb : Code.branch t.words yes no = .ok br)
    (ht : t.Turns Γ Γyes Γno) (hy : Typed K ok yes Γyes Δ) (hn : Typed K ok no Γno Δ) :
    Typed K ok br Γ Δ := by
  have h := branch hb ht hy hn (.nil Δ)
  rwa [List.append_nil] at h

theorem rounds (hl : Code.loop (Code.op .whileMatched) body = .ok lp)
    (hb : Typed K ok body (.value :: Γ) (.result :: Γ)) :
    Typed K ok lp (.result :: Γ) (.result :: Γ) := by
  have h := loop hl hb (.nil _)
  rwa [List.append_nil] at h

theorem whole (hc : Typed K ok c Γ Δ) : c.Whole := by
  induction hc with
  | nil => exact Code.whole_nil
  | widen _ ih => exact ih
  | instr _ _ ih => exact (Code.whole_instr _).append ih
  | silenced _ _ ihi ih =>
    exact (Code.whole_instr _).append (ihi.append ((Code.whole_instr _).append ih))
  | branch hb _ _ _ _ _ _ ih => exact (Code.whole_branch hb).append ih
  | take hb _ _ _ ih => exact (Code.whole_branch hb).append ih
  | loop hl _ _ _ ih => exact (Code.whole_loop hl).append ih
  | call _ _ hn _ _ _ ih => exact (Code.whole_instr _).append ((Code.whole_slots hn).append ih)

end Typed
end PegMachine
