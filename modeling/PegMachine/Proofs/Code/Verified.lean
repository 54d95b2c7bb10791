import PegMachine.Proofs.Code.Check

/-! Code for which the checker finds a height is balanced, and so it is put together from finished
pieces, whoever wrote its words. -/
namespace PegMachine

variable {ok : ℕ → ℕ → Prop} {M h j k : ℕ} {c args ws : Code} {op : Opcode} {t : Test}

/-- What starts with the opcode is spelled with it. -/
theorem Opcode.form_words (op : Opcode) :
    match op.form with
    | .plain i => i.words = [op.word]
    | .plainOf i => ∀ n, (i n).words = [op.word, n]
    | .test t => t.words = [op.word]
    | .testOf t => ∀ n, (t n).words = [op.word, n]
    | .loop => op = .whileMatched
    | .call => op = .call := by
  cases op <;> first | rfl | exact fun _ => rfl

namespace Head

/-- The words from the opcode on, where `ws` is what stands after the head. -/
def Spells (ws : Code) : Head → Code → Prop
  | .instr i, c => c = i.words ++ ws
  | .branch t a b, c => ∃ m n : UInt32, m.toNat = a ∧ n.toNat = b ∧ c = t.words ++ m :: n :: ws
  | .loop a, c => ∃ n : UInt32, n.toNat = a ∧ c = Code.op .whileMatched ++ n :: ws
  | .call f p slots, c =>
    ∃ n : UInt32, n.toNat = slots.length ∧ c = (Opcode.call.word :: f :: p :: n :: slots) ++ ws

theorem read_spells {head : Head} (hr : read op.form args = some (head, ws)) :
    head.Spells ws (op.word :: args) := by
  have hw := op.form_words
  generalize op.form = f at hr hw
  revert hr
  fun_cases read f args <;> intro hr
  case case7 | case8 => cases hr
  all_goals obtain ⟨rfl, rfl⟩ := Prod.mk.inj (Option.some.inj hr)
  case case1 i => exact congrArg (· ++ args) hw.symm
  case case2 i n ws => exact congrArg (· ++ ws) (hw n).symm
  case case3 t m n ws => exact ⟨m, n, rfl, rfl, congrArg (· ++ m :: n :: ws) hw.symm⟩
  case case4 t i m n ws => exact ⟨m, n, rfl, rfl, congrArg (· ++ m :: n :: ws) (hw i).symm⟩
  case case5 n ws =>
    obtain rfl : op = .whileMatched := hw
    exact ⟨n, rfl, rfl⟩
  case case6 f p n ws hn =>
    obtain rfl : op = .call := hw
    exact ⟨n, by simp [hn], by simp⟩

end Head

theorem operand_toNat_eq_ok (what : String) (w : UInt32) : operand what w.toNat = .ok w := by
  rw [operand, if_pos w.toNat_lt, UInt32.ofNat_toNat]

namespace Code

theorem branch_eq_ok {test yes no : Code} {m n : UInt32} (hm : m.toNat = yes.length)
    (hn : n.toNat = no.length) : branch test yes no = .ok (test ++ m :: n :: (yes ++ no)) := by
  rw [branch, ← hm, ← hn, operand_toNat_eq_ok, operand_toNat_eq_ok]
  simp [bind, Except.bind]

theorem loop_eq_ok {test body : Code} {n : UInt32} (hn : n.toNat = body.length) :
    loop test body = .ok (test ++ n :: body) := by
  rw [loop, ← hn, operand_toNat_eq_ok]
  simp [bind, Except.bind]

end Code

namespace Balanced

/-- A test whose bodies are the stretches that its words give the lengths of. -/
theorem branch_words {m n : UInt32} (hlen : m.toNat + n.toNat ≤ ws.length)
    (ht : t.opcode.reads ≤ h) (hy : Balanced ok M (ws.take m.toNat) (h - t.takes) j)
    (hn : Balanced ok M ((ws.drop m.toNat).take n.toNat) (h - t.takes) j)
    (hc : Balanced ok M (ws.drop (m.toNat + n.toNat)) j k) :
    Balanced ok M (t.words ++ m :: n :: ws) h k := by
  have hm : m.toNat = (ws.take m.toNat).length := by
    rw [List.length_take]
    omega
  have hno : n.toNat = ((ws.drop m.toNat).take n.toNat).length := by
    rw [List.length_take, List.length_drop]
    omega
  have hwords := branch (Code.branch_eq_ok hm hno) ht hy hn hc
  rw [← List.drop_drop] at hwords
  simpa using hwords

theorem loop_words {n : UInt32} (hlen : n.toNat ≤ ws.length) (ht : 0 < h)
    (hb : Balanced ok M (ws.take n.toNat) h h) (hc : Balanced ok M (ws.drop n.toNat) h k) :
    Balanced ok M (Code.op .whileMatched ++ n :: ws) h k := by
  have hn : n.toNat = (ws.take n.toNat).length := by
    rw [List.length_take]
    omega
  have hwords := loop (Code.loop_eq_ok hn) ht hb hc
  simpa using hwords

end Balanced

/-- No word is a negative number to the checker, not even when one is added to it. -/
def Code.Small (c : Code) : Prop := ∀ w ∈ c, w.toNat < 2 ^ 31 - 1

-- by the words of the code: there are too many words to try them all
instance : DecidablePred Code.Small :=
  List.decidableBAll fun w : UInt32 => w.toNat < 2 ^ 31 - 1

namespace Code.Small

theorem left (h : Small (c ++ ws)) : c.Small := fun w hw => h w (List.mem_append_left _ hw)

theorem right (h : Small (c ++ ws)) : ws.Small := fun w hw => h w (List.mem_append_right _ hw)

theorem take (h : c.Small) (n : ℕ) : Small (c.take n) := fun w hw => h w (List.mem_of_mem_take hw)

theorem drop (h : c.Small) (n : ℕ) : Small (c.drop n) := fun w hw => h w (List.mem_of_mem_drop hw)

end Code.Small

theorem Instr.takes_le {i : Instr} (h : Code.Small i.words) : i.takes ≤ 2 ^ 31 - 1 := by
  have hop : ∀ n ∈ i.operands, n.toNat < 2 ^ 31 - 1 := fun n hn => h n (List.mem_cons_of_mem _ hn)
  cases i <;> simp [Instr.operands] at hop ⊢ <;> omega

namespace Block

/-! What a height tells of the first instruction and of what follows it. -/

section height

variable {ip : ℕ} {yes no body rest : Block} {h z : ℤ}

theorem height_instr_eq_ok {i : Instr} (hr : (instr ip i rest).height h = .ok z) :
    0 ≤ h - i.pops ∧ rest.height (h - i.pops + i.pushes) = .ok z := by
  rw [height_instr] at hr
  split at hr
  · cases hr
  · next hp => exact ⟨not_lt.mp hp, hr⟩

theorem height_branch_eq_ok {m n : ℕ} (hr : (branch ip t m n yes no rest).height h = .ok z) :
    ∃ k, need ip t.opcode h = .ok () ∧ yes.height (h - t.pops) = .ok k ∧
      no.height (h - t.pops) = .ok k ∧ rest.height k = .ok z := by
  rw [height_branch] at hr
  obtain ⟨_, hneed, hr⟩ := except_bind_eq_ok.mp hr
  obtain ⟨k, hy, hr⟩ := except_bind_eq_ok.mp hr
  obtain ⟨k', hn, hr⟩ := except_bind_eq_ok.mp hr
  split at hr
  · next hk => exact ⟨k, hneed, hy, hk ▸ hn, hr⟩
  · cases hr

theorem height_loop_eq_ok {n : ℕ} (hr : (loop ip n body rest).height h = .ok z) :
    need ip .whileMatched h = .ok () ∧ body.height h = .ok h ∧ rest.height h = .ok z := by
  rw [height_loop] at hr
  obtain ⟨_, hneed, hr⟩ := except_bind_eq_ok.mp hr
  obtain ⟨k, hb, hr⟩ := except_bind_eq_ok.mp hr
  split at hr
  · next hk => exact ⟨hneed, hk ▸ hb, hr⟩
  · cases hr

theorem height_call_eq_ok {f pops : UInt32} {slots : Code}
    (hr : (call ip f pops slots rest).height h = .ok z) :
    needSlots ip h slots = .ok () ∧ signed pops ≤ h ∧
      rest.height (h - signed pops + 1) = .ok z := by
  rw [height_call] at hr
  obtain ⟨_, hneed, hr⟩ := except_bind_eq_ok.mp hr
  split at hr
  · cases hr
  · next hp => exact ⟨hneed, not_lt.mp hp, hr⟩

end height

theorem reads_le_of_need {ip : ℕ} {u : Unit} (hn : need ip op h = .ok u) : op.reads ≤ h := by
  unfold need at hn
  split at hn
  · cases hn
  · omega

theorem lt_of_needSlots {ip : ℕ} {slots : Code} {u : Unit} (hs : slots.Small)
    (hn : needSlots ip h slots = .ok u) : ∀ x ∈ slots, x.toNat < h := by
  induction slots with
  | nil =>
    intro x hx
    cases hx
  | cons y ys ih =>
    rw [needSlots] at hn
    split at hn
    · cases hn
    · next hy =>
      have hsmall : y.toNat < 2 ^ 31 - 1 := hs y List.mem_cons_self
      rw [signed_of_lt (by omega)] at hy
      have hrest := ih (fun w hw => hs w (List.mem_cons_of_mem _ hw)) hn
      exact List.forall_mem_cons.mpr ⟨by omega, hrest⟩

end Block

/-- Where the checker finds a height, every path through the code leads to it. -/
theorem Balanced.of_height {ip : ℕ} {z : ℤ} (hs : c.Small)
    (hr : (Block.read ip c).height h = .ok z) :
    ∃ k : ℕ, z = k ∧ Balanced (fun h n => n < h) (2 ^ 31 - 1) c h k := by
  fun_induction Block.read ip c generalizing h z with
  | case1 ip =>
    obtain rfl := Except.ok.inj hr
    exact ⟨h, rfl, .nil h⟩
  | case2 ip w args hop => cases hr
  | case3 ip w args op hop hhead =>
    obtain ⟨_, -, hr⟩ := except_bind_eq_ok.mp hr
    obtain ⟨_, -, hr⟩ := except_bind_eq_ok.mp hr
    cases hr
  | case4 ip w args op hop i ws hhead ih =>
    obtain rfl := Opcode.ofWord?_eq_some_iff.mp hop
    have hc : op.word :: args = i.words ++ ws := Head.read_spells hhead
    rw [hc] at hs ⊢
    have hi := Instr.takes_le hs.left
    have hpops := Instr.pops_eq_takes (i := i) (by omega)
    have hpushes := Instr.pushes_eq_gives (i := i) (by omega)
    obtain ⟨ht, hr⟩ := Block.height_instr_eq_ok hr
    have hh : (h : ℤ) - i.pops + i.pushes = (h - i.takes + i.gives : ℕ) := by omega
    rw [hh] at hr
    obtain ⟨k, rfl, hk⟩ := ih hs.right hr
    exact ⟨k, rfl, .instr hi (by omega) hk⟩
  | case5 ip w args op hop t a b ws hhead start hlen ihy ihn =>
    rename_i ih
    obtain rfl := Opcode.ofWord?_eq_some_iff.mp hop
    obtain ⟨m, n, rfl, rfl, hc⟩ := Head.read_spells hhead
    rw [hc] at hs ⊢
    have hws : Code.Small ws := fun w hw => hs w (by simp [hw])
    obtain ⟨y, hneed, hy, hn, hr⟩ := Block.height_branch_eq_ok hr
    have hreads := Block.reads_le_of_need hneed
    have htakes := t.takes_le_reads
    have hh : (h : ℤ) - t.pops = (h - t.takes : ℕ) := by
      rw [Test.pops_eq_takes]
      omega
    rw [hh] at hy hn
    obtain ⟨j, rfl, hyes⟩ := ihy (hws.take _) hy
    obtain ⟨j', hj, hno⟩ := ihn ((hws.drop _).take _) hn
    obtain rfl := Nat.cast_injective hj
    obtain ⟨k, rfl, hk⟩ := ih (hws.drop _) hr
    exact ⟨k, rfl, .branch_words hlen hreads hyes hno hk⟩
  | case7 ip w args op hop a ws hhead hlen ihb ih =>
    obtain rfl := Opcode.ofWord?_eq_some_iff.mp hop
    obtain ⟨n, rfl, hc⟩ := Head.read_spells hhead
    rw [hc] at hs ⊢
    have hws : Code.Small ws := fun w hw => hs w (by simp [hw])
    obtain ⟨hneed, hbody, hr⟩ := Block.height_loop_eq_ok hr
    have hreads := Block.reads_le_of_need hneed
    obtain ⟨j, hj, hb⟩ := ihb (hws.take _) hbody
    obtain rfl := Nat.cast_injective hj
    obtain ⟨k, rfl, hk⟩ := ih (hws.drop _) hr
    exact ⟨k, rfl, .loop_words hlen hreads hb hk⟩
  | case6 | case8 =>
    obtain ⟨_, -, hr⟩ := except_bind_eq_ok.mp hr
    cases hr
  | case9 ip w args op hop f p slots ws hhead ih =>
    obtain rfl := Opcode.ofWord?_eq_some_iff.mp hop
    obtain ⟨n, hn, hc⟩ := Head.read_spells hhead
    rw [hc] at hs ⊢
    have hp : p.toNat < 2 ^ 31 - 1 := hs p (by simp)
    have hslots : Code.Small slots := fun w hw => hs w (by simp [hw])
    have hsigned : signed p = p.toNat := signed_of_lt (by omega)
    obtain ⟨hneed, hpops, hr⟩ := Block.height_call_eq_ok hr
    have hh : (h : ℤ) - signed p + 1 = (h - p.toNat + 1 : ℕ) := by omega
    rw [hh] at hr
    obtain ⟨k, rfl, hk⟩ := ih hs.right hr
    exact ⟨k, rfl, .call hn (by omega) (by omega) (Block.lt_of_needSlots hslots hneed) hk⟩

/-- A rule that passes the check is balanced, from an empty stack to its value. -/
theorem Balanced.of_checkRule (hs : c.Small) (hc : Code.checkRule c = .ok ()) :
    Balanced (fun h n => n < h) (2 ^ 31 - 1) c 0 1 := by
  obtain ⟨z, hz, hc⟩ := except_bind_eq_ok.mp hc
  split at hc
  · next h1 =>
    subst h1
    obtain ⟨k, hk, hbal⟩ := of_height (h := 0) hs hz
    obtain rfl : 1 = k := by omega
    exact hbal
  · cases hc

end PegMachine
