import PegMachine.Proofs.Semantics.Agreement
import PegMachine.Proofs.Semantics.Slots

/-! Which values leave the machine. Marks of failure, places and bounds are the machine's own: a host
that does not answer with them is never given any, and no result has one in it, but that it may be the
mark of failure itself. -/
namespace PegMachine

variable {σ : Type} {Γ : List Slot} {S U T : Stack} {slots : Code} {args vs : List Value}
  {input : Input} {V : Value → Prop} {lo hi o : ℕ} {g : Grammar} {p : Program} {verify : Bool}
  {H : Host σ}

open Run

namespace Value

mutual

/-- Nothing in the value is the machine's own: no mark of failure, no place and no bound. -/
def isPlain : Value → Bool
  | .failed | .pos _ | .bound _ => false
  | .undefined | .null | .string _ | .bool _ | .integer _ => true
  | .array vs => arePlain vs

def arePlain : List Value → Bool
  | [] => true
  | v :: vs => isPlain v && arePlain vs

end

theorem arePlain_iff : arePlain vs = true ↔ ∀ v ∈ vs, v.isPlain = true := by
  induction vs with
  | nil => simp [arePlain]
  | cons v vs ih => simp [arePlain, ih]

theorem isPlain_array : (Value.array vs).isPlain = true ↔ ∀ v ∈ vs, v.isPlain = true := by
  rw [isPlain, arePlain_iff]

end Value

/-- The host is given one plain value for each parameter, and the parameters are all different. -/
structure HostCall.Proper (c : HostCall) : Prop where
  params : c.function.params.Nodup
  length : c.args.length = c.function.params.length
  plain : ∀ v ∈ c.args, v.isPlain = true

/-- Where the host answers a proper call, it answers with a plain value. -/
def Host.AnswersPlain (H : Host σ) : Prop :=
  ∀ c : HostCall, c.Proper → ∀ h v, (H c.function c.context c.args h).1 = .ok v → v.isPlain = true

theorem Host.AnswersPlain.recorded (hH : H.AnswersPlain) : H.recorded.AnswersPlain :=
  fun c hc s v h => hH c hc s.1 v h

/-- Slots for values are read. -/
theorem Fills.peekAll (hU : Fills input V lo hi Γ U) (hs : ∀ x ∈ slots, Γ[x.toNat]? = some .value)
    (h : (U ++ T).peekAll slots = .ok args) : args.length = slots.length ∧ ∀ v ∈ args, V v := by
  induction slots generalizing args with
  | nil =>
    cases h
    simp
  | cons x slots ih =>
    obtain ⟨v, hv, h⟩ := except_bind_eq_ok.mp h
    obtain ⟨vs, hvs, h⟩ := except_bind_eq_ok.mp h
    cases h
    obtain ⟨hl, hV⟩ := ih (fun y hy => hs y (List.mem_cons_of_mem _ hy)) hvs
    obtain ⟨w, q, Γ', U', hw, -, hU'⟩ := hU.get (hs x List.mem_cons_self)
    obtain ⟨w', U'', heq, hheld, -⟩ := hU'.held (by simp)
    obtain ⟨rfl, rfl⟩ := List.cons.inj heq
    rw [Stack.peek_eq_ok, List.getElem?_append_left (List.getElem?_eq_some_iff.mp hw).1, hw] at hv
    obtain rfl := Option.some.inj hv
    exact ⟨congrArg Nat.succ hl, List.forall_mem_cons.mpr ⟨hheld, hV⟩⟩

/-- A host that answers with plain values can be relied on, for whatever failures and proper calls
leave true. -/
theorem Env.trusts_plain {env : Env σ} {J : Report → σ → Prop} (hH : env.host.AnswersPlain)
    (hr : ∀ r h p e, J r h → J (r.record p e) h)
    (hc : ∀ c : HostCall, c.Proper → ∀ r h, J r h →
      J r (env.host c.function c.context c.args h).2) :
    env.Trusts Demand.values.calls o (fun v => v.isPlain = true) J where
  undefined := rfl
  null := rfl
  string _ := rfl
  array _ := Value.isPlain_array
  record _ hJ e := hr _ _ _ e hJ
  call {f Γ slots U T args lo reported pos r h} hok hU hargs _ _ hJ := by
    obtain ⟨hparams, hlength, hslots⟩ := hok
    obtain ⟨hl, hplain⟩ := hU.peekAll hslots hargs
    have hproper : HostCall.Proper ⟨f, ⟨env.input, reported, pos⟩, args⟩ :=
      ⟨hparams, hl.trans hlength, hplain⟩
    exact ⟨hc _ hproper r h hJ, hH _ hproper h⟩

theorem Env.trusts_recorded {env : Env (σ × List HostCall)} (hH : H.AnswersPlain)
    (he : env.host = H.recorded) :
    env.Trusts Demand.values.calls o (fun v => v.isPlain = true)
      (fun _ h => ∀ c ∈ h.2, c.Proper) := by
  refine trusts_plain (he ▸ hH.recorded) (fun _ _ _ _ h => h) fun c hc r h hJ => ?_
  rw [he]
  intro d hd
  rcases List.mem_append.mp hd with hd | hd
  · exact hJ d hd
  · obtain rfl := List.mem_singleton.mp hd
    exact hc

namespace Grammar

/-- If the host answers proper calls with plain values, then a run of a compiled grammar makes no
other calls, and every rule that ends has a plain value or the mark of failure. The calls of a run that
is stopped are meant too. -/
theorem generate_plain (hg : g.generate verify = .ok p) (hH : H.AnswersPlain) (limits : Limits)
    (fuel : ℕ) (input : String) :
    (∀ depth i s v t,
      Run.rule ((Machine.mk p H limits fuel).env input) p.load fuel depth i s = .ok v t →
        v = .failed ∨ v.isPlain = true) ∧
    ∀ i s, s.host.2 = [] → Upholds (fun t => ∀ c ∈ t.host.2, c.Proper)
      (fun o _ => o.value = .failed ∨ o.value.isPlain = true)
      ((Machine.mk p H.recorded limits fuel).run i input s) := by
  have hmakes := generate_makes hg
  constructor
  · intro depth i s v t h
    let m : Machine σ := ⟨p, H, limits, fuel⟩
    have hu : (m.env input).Trusts Demand.values.calls s.pos (fun v => v.isPlain = true)
        fun _ _ => True := Env.trusts_plain hH (fun _ _ _ _ _ => trivial) fun _ _ _ _ _ => trivial
    have hrule := hmakes.upholds_rule (m := m) input hu depth i s ⟨.refl _ _, trivial⟩
    rw [h] at hrule
    exact hrule.2.1
  · intro i s hs
    let m : Machine (σ × List HostCall) := ⟨p, H.recorded, limits, fuel⟩
    have hu : (m.env input).Trusts Demand.values.calls 0 (fun v => v.isPlain = true)
        fun _ h => ∀ c ∈ h.2, c.Proper := Env.trusts_recorded hH rfl
    have hrule := hmakes.upholds_rule (m := m) input hu limits.callDepth i
    have hrun := m.upholds_run (t := s) hrule (by simp [hs])
    exact hrun.imp (fun _ ht => ht.2) fun _ _ _ ho => ho.1

/-- Two letters. For each of them the host answers with an array of what it is given. -/
theorem generate_plain_letters :
    let g : Grammar := ⟨[⟨"list", .zeroOrMore (.rule "letter")⟩,
      ⟨"letter", .action (.labeled "x" .any) "x"⟩]⟩
    let H : Host Unit := fun _ _ args h => (.ok (.array args), h)
    ∃ p o t, g.generate true = .ok p ∧ H.AnswersPlain ∧
      (Machine.mk p H.recorded {} 3).run 0 "ab" (.start ((), [])) = .ok o t ∧
      o.value = .array [.array [.string "a"], .array [.string "b"]] ∧ o.value.isPlain = true ∧
      t.host.2.length = 2 ∧ ∀ c ∈ t.host.2, c.Proper := by
  intro g H
  let list : Code := [0, 0, 25, 1, 14, 3, 6, 25, 1, 2]
  let letter : Code := [1, 15, 2, 2, 19, 1, 21, 1, 11, 7, 0, 22, 1, 24, 2, 1, 1, 0, 5]
  let p : Program := ⟨[⟨"list", list⟩, ⟨"letter", letter⟩],
    [.emptyArray, .expectation .anyChar, .function ⟨["x"], "x"⟩]⟩
  have hg : g.generate true = .ok p := by decide +kernel
  have hl : p.load = [⟨"list", .instr 0 (.push 0) (.instr 2 (.rule 1) (.loop 4 3
      (.instr 6 .append (.instr 7 (.rule 1) .done)) (.instr 9 .pop .done)))⟩,
    ⟨"letter", .instr 0 .pushPos (.branch 1 .any 2 2 (.instr 4 (.acceptN 1) .done)
      (.instr 6 (.fail 1) .done) (.branch 8 .isMatched 7 0 (.instr 11 (.reportSaved 1)
        (.call 13 2 1 [0] .done)) .done (.instr 18 .nip .done)))⟩] := by
    decide +kernel
  have hH : H.AnswersPlain := by
    rintro c hc h v hv
    obtain rfl := Except.ok.inj hv
    exact Value.isPlain_array.mpr hc.plain
  have hr : ∃ o t, (Machine.mk p H.recorded {} 3).run 0 "ab" (.start ((), [])) = .ok o t ∧
      o.value = .array [.array [.string "a"], .array [.string "b"]] ∧ t.host.2.length = 2 := by
    rw [Machine.run, hl]
    exact ⟨_, _, rfl, rfl, rfl⟩
  obtain ⟨o, t, hr, hv, hcalls⟩ := hr
  have hrun := (generate_plain hg hH {} 3 "ab").2 0 (.start ((), [])) rfl
  rw [hr] at hrun
  refine ⟨p, o, t, hg, hH, hr, hv, hrun.2.resolve_left ?_, hcalls, hrun.1⟩
  rw [hv]
  simp

end Grammar
end PegMachine
