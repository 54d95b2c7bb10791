import PegMachine.Proofs.Compile.Assembly
import PegMachine.Proofs.Semantics.Program

/-! Code whose loops are not empty. The compiler makes no other, but the checker lets it through. -/
namespace PegMachine

variable {rules : String → Option ℕ} {s : Scope} {sp : ℤ} {a b c yes no body br lp : Code}
  {xs : List String}

namespace Block

/-- The least number of instructions that a run of the code counts. -/
def least : Block → ℕ
  | .done => 0
  | .unknown .. | .truncated .. | .branchOverrun .. | .loopOverrun .. | .instr .. | .branch ..
  | .loop .. | .call .. => 1

/-- Each pass of a loop in the code counts an instruction. -/
def Productive : Block → Prop
  | .instr _ _ rest => rest.Productive
  | .branch _ _ _ _ yes no rest => yes.Productive ∧ no.Productive ∧ rest.Productive
  | .loop _ _ body rest => 0 < body.least ∧ body.Productive ∧ rest.Productive
  | .call _ _ _ _ rest => rest.Productive
  | .done | .unknown .. | .truncated .. | .branchOverrun .. | .loopOverrun .. => True

theorem Productive.append {a b : Block} (ha : a.Productive) (hb : b.Productive) :
    (a.append b).Productive := by
  induction a with
  | done => exact hb
  | instr ip i rest ih => exact ih ha
  | branch ip t m l yes no rest _ _ ih => exact ⟨ha.1, ha.2.1, ih ha.2.2⟩
  | loop ip l body rest _ ih => exact ⟨ha.1, ha.2.1, ih ha.2.2⟩
  | call ip f pops slots rest ih => exact ih ha
  | unknown | truncated | branchOverrun | loopOverrun => trivial

end Block

/-- Wherever the code stands, it is read in full, and each pass of a loop in it counts an
instruction. -/
structure Code.Productive (c : Code) : Prop where
  whole : c.Whole
  read (ip : ℕ) : (Block.read ip c).Productive

namespace Code.Productive

theorem nil : Productive [] := by
  refine ⟨whole_nil, fun ip => ?_⟩
  rw [Block.read_nil]
  trivial

theorem append (ha : a.Productive) (hb : b.Productive) : (a ++ b).Productive := by
  refine ⟨ha.whole.append hb.whole, fun ip => ?_⟩
  have h := ha.whole ip b
  rw [h]
  exact (ha.read ip).append (hb.read _)

theorem instr (i : Instr) : Productive i.words := by
  refine ⟨whole_instr i, fun ip => ?_⟩
  have h := Block.read_instr ip i []
  rw [List.append_nil, Block.read_nil] at h
  rw [h]
  trivial

theorem seq (is : List Instr) : (seq is).Productive := by
  induction is with
  | nil => exact nil
  | cons i is ih => exact (instr i).append ih

theorem branch {t : Test} (h : Code.branch t.words yes no = .ok br) (hy : yes.Productive)
    (hn : no.Productive) : br.Productive := by
  refine ⟨whole_branch h, fun ip => ?_⟩
  obtain ⟨j, k, hr⟩ := Block.read_branch h ip
  have hr := hr []
  rw [List.append_nil, Block.read_nil] at hr
  rw [hr]
  exact ⟨hy.read j, hn.read k, trivial⟩

/-- A loop whose body begins with an instruction. -/
theorem loop {i : Instr} {is : List Instr}
    (h : Code.loop (op .whileMatched) (Code.seq (i :: is) ++ body) = .ok lp)
    (hb : body.Productive) : lp.Productive := by
  refine ⟨whole_loop h, fun ip => ?_⟩
  obtain ⟨j, hr⟩ := Block.read_loop h ip
  have hr := hr []
  rw [List.append_nil, Block.read_nil] at hr
  rw [hr]
  have hbody := (seq (i :: is)).append hb
  refine ⟨?_, hbody.read j, trivial⟩
  rw [seq_cons, List.append_assoc, Block.read_instr]
  exact Nat.one_pos

theorem call {f : UInt32} {pops : ℕ} (h : Code.call f pops s sp = .ok c) : c.Productive := by
  refine ⟨whole_call h, fun ip => ?_⟩
  obtain ⟨slots, m, k, -, -, hk, rfl⟩ := call_words h
  have hr := Block.read_call (f := f) (n := m) hk ip []
  rw [List.append_nil, Block.read_nil] at hr
  rw [hr]
  trivial

end Code.Productive

/-- Code as the compiler puts it together makes each pass of its loops count. -/
theorem Code.Assembled.productive (hc : c.Assembled rules xs) : c.Productive := by
  induction hc with
  | quiet is => exact .seq is
  | rule => exact .seq _
  | call hc => exact .call hc
  | append _ _ iha ihb => exact iha.append ihb
  | branch h _ _ ihy ihn => exact .branch h ihy ihn
  | loop h _ _ ihb => exact .loop h ihb

/-- The loops of all rules make each pass count. -/
def Program.Productive (p : Program) : Prop := ∀ r ∈ p.rules, (Block.read 0 r.code).Productive

theorem Grammar.Makes.productive {g : Grammar} {p : Program} (hg : g.Makes p) : p.Productive := by
  intro c hc
  obtain ⟨i, hi, rfl⟩ := List.getElem_of_mem hc
  have hi' : i < g.rules.length := hg.length_eq ▸ hi
  have hshape := hg.shapes.get hi' hi
  exact ((g.rules[i].body).assembled _ _ _ hshape.2).productive.read 0

end PegMachine
