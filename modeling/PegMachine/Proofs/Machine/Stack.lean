import PegMachine.Machine.Stack
import PegMachine.Proofs.Results

/-! What an operation on the stack finds there when it succeeds. -/
namespace PegMachine.Stack

variable {S T : Stack} {n : ℕ} {v : Value}

theorem pop_eq_ok {p : Value × Stack} : S.pop = .ok p ↔ S = p.1 :: p.2 := by
  cases S with
  | nil => simp [pop]
  | cons v S => simp [pop, Prod.ext_iff]

theorem top_eq_ok : S.top = .ok v ↔ ∃ R, S = v :: R := by
  cases S with
  | nil => simp [top]
  | cons v S => simp [top]

theorem popN_eq_ok : S.popN n = .ok T ↔ n ≤ S.length ∧ T = S.drop n := by
  unfold popN
  split
  · simp
    omega
  · simp [eq_comm]
    omega

theorem peek_eq_ok : S.peek n = .ok v ↔ S[n]? = some v := by
  unfold peek
  cases S[n]? <;> simp

theorem nip_eq_ok : S.nip = .ok T ↔ ∃ v u R, S = v :: u :: R ∧ T = v :: R := by
  obtain _ | ⟨v, _ | ⟨u, R⟩⟩ := S
  · simp [nip]
  · simp [nip]
  · simp [nip, eq_comm]

theorem items_eq_ok {vs : List Value} : items v = .ok vs ↔ v = .array vs := by
  cases v <;> simp [items]

theorem append_eq_ok :
    S.append = .ok T ↔ ∃ v vs R, S = v :: .array vs :: R ∧ T = .array (vs ++ [v]) :: R := by
  obtain _ | ⟨v, _ | ⟨u, R⟩⟩ := S
  · simp [append]
  · simp [append]
  · simp only [append, except_bind_eq_ok, items_eq_ok]
    constructor
    · rintro ⟨vs, rfl, h⟩
      exact ⟨v, vs, R, rfl, (Except.ok.inj h).symm⟩
    · rintro ⟨w, vs, T, h, rfl⟩
      simp only [List.cons.injEq] at h
      obtain ⟨rfl, rfl, rfl⟩ := h
      exact ⟨vs, rfl, rfl⟩

theorem wrap_eq_ok :
    S.wrap n = .ok T ↔ n ≤ S.length ∧ T = .array (S.take n).reverse :: S.drop n := by
  unfold wrap
  split
  · simp
    omega
  · simp [eq_comm]
    omega

end PegMachine.Stack
