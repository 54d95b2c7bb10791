import PegMachine.Proofs.Compile.Appending
import PegMachine.Proofs.Compile.Assembly
import PegMachine.Proofs.Compile.Errors

/-! References to rules. The compiler stops at the reference at which the check for missing rules does.
Where there is none such, each reference stands in the code as the number of the first rule of its name. -/
namespace PegMachine

variable {rules : String → Option ℕ} {s : Scope} {sp : ℤ} {a b c yes no body br lp : Code}
  {xs ys : List String} {g : Grammar} {verify : Bool}

/-- A number, or the distance of a slot from the top, is too large for an operand. -/
def CompileError.Overflow : CompileError → Prop
  | .operandOverflow _ _ => True
  | .invalidSlot _ slot sp => UInt32.size ≤ sp - slot
  | _ => False

/-- The numbers of the rules that the code enters, in the order in which they stand in it. -/
def Block.ruleNumbers : Block → List UInt32
  | .instr _ i rest => i.rule?.toList ++ rest.ruleNumbers
  | .branch _ _ _ _ yes no rest => yes.ruleNumbers ++ (no.ruleNumbers ++ rest.ruleNumbers)
  | .loop _ _ body rest => body.ruleNumbers ++ rest.ruleNumbers
  | .call _ _ _ _ rest => rest.ruleNumbers
  | .done | .unknown .. | .truncated .. | .branchOverrun .. | .loopOverrun .. => []

/-- These are the numbers of the rules of these names, one for one. -/
def Numbered (rules : String → Option ℕ) : List String → List UInt32 → Prop :=
  List.Forall₂ fun name i => rules name = some i.toNat

/-- Wherever the code stands, it enters the rules of these names, before those that what comes after it
enters. -/
def Code.Enters (rules : String → Option ℕ) (names : List String) (c : Code) : Prop :=
  ∃ is, Numbered rules names is ∧ ∀ ip ws,
    (Block.read ip (c ++ ws)).ruleNumbers = is ++ (Block.read (ip + c.length) ws).ruleNumbers

namespace Code.Enters

theorem ruleNumbers (hc : c.Enters rules xs) :
    ∃ is, Numbered rules xs is ∧ ∀ ip, (Block.read ip c).ruleNumbers = is := by
  obtain ⟨is, hi, hread⟩ := hc
  refine ⟨is, hi, fun ip => ?_⟩
  have h := hread ip []
  rwa [List.append_nil, Block.read_nil, Block.ruleNumbers, List.append_nil] at h

theorem append (ha : a.Enters rules xs) (hb : b.Enters rules ys) :
    (a ++ b).Enters rules (xs ++ ys) := by
  obtain ⟨is, hi, ha⟩ := ha
  obtain ⟨js, hj, hb⟩ := hb
  refine ⟨is ++ js, List.rel_append hi hj, fun ip ws => ?_⟩
  rw [List.append_assoc, ha, hb, List.append_assoc, List.length_append, Nat.add_assoc]

/-- Instructions of which none enters a rule. -/
theorem quiet (is : List Instr) (h : is.filterMap Instr.rule? = []) : (seq is).Enters rules [] := by
  refine ⟨[], .nil, fun ip ws => ?_⟩
  induction is generalizing ip with
  | nil => rfl
  | cons i is ih =>
    obtain ⟨hi, his⟩ : i.rule? = none ∧ is.filterMap Instr.rule? = [] := by
      cases hi : i.rule? <;> simp_all
    rw [seq_cons, List.append_assoc, Block.read_instr, Block.ruleNumbers, hi, ih his,
      List.length_append, Nat.add_assoc]
    rfl

theorem rule {name : String} {i : ℕ} (hi : rules name = some i) (hsize : i < UInt32.size) :
    (seq [.rule (UInt32.ofNat i)]).Enters rules [name] := by
  refine ⟨[UInt32.ofNat i], .cons ?_ .nil, fun ip ws => ?_⟩
  · rw [hi, UInt32.toNat_ofNat_of_lt' hsize]
  · rw [seq_cons, List.append_assoc, Block.read_instr]
    rfl

theorem branch {t : Test} (h : Code.branch t.words yes no = .ok br) (hy : yes.Enters rules xs)
    (hn : no.Enters rules ys) : br.Enters rules (xs ++ ys) := by
  obtain ⟨is, hi, hy⟩ := hy.ruleNumbers
  obtain ⟨js, hj, hn⟩ := hn.ruleNumbers
  refine ⟨is ++ js, List.rel_append hi hj, fun ip ws => ?_⟩
  obtain ⟨j, k, hr⟩ := Block.read_branch h ip
  rw [hr, Block.ruleNumbers, hy, hn, List.append_assoc]

theorem loop (h : Code.loop (op .whileMatched) body = .ok lp) (hb : body.Enters rules xs) :
    lp.Enters rules xs := by
  obtain ⟨is, hi, hb⟩ := hb.ruleNumbers
  refine ⟨is, hi, fun ip ws => ?_⟩
  obtain ⟨j, hr⟩ := Block.read_loop h ip
  rw [hr, Block.ruleNumbers, hb]

theorem call {f : UInt32} {pops : ℕ} (h : Code.call f pops s sp = .ok c) : c.Enters rules [] := by
  refine ⟨[], .nil, fun ip ws => ?_⟩
  obtain ⟨slots, m, k, -, -, hk, rfl⟩ := call_words h
  rw [Block.read_call hk]
  rfl

/-- Code as the compiler puts it together. The numbers in it are words, so they must fit into one. -/
theorem of_assembled (hsize : ∀ name i, rules name = some i → i < UInt32.size)
    (hc : c.Assembled rules xs) : c.Enters rules xs := by
  induction hc with
  | quiet is h => exact quiet is h
  | rule hi => exact rule hi (hsize _ _ hi)
  | call hc => exact call hc
  | append _ _ iha ihb => exact iha.append ihb
  | branch h _ _ ihy ihn => exact branch h ihy ihn
  | loop h hi _ ihb => exact loop h ((quiet _ hi).append ihb)

end Code.Enters

/-- Takes the names of the rules down in a table, from number `i` on. A name keeps its first number. -/
def numberRules (t : Std.HashMap String UInt32) (i : ℕ) :
    List Rule → Except CompileError (Std.HashMap String UInt32)
  | [] => .ok t
  | r :: rs => do
    let k ← operand "rule index" i
    numberRules (t.insertIfNew r.name k) (i + 1) rs

/-- What the table finds is what a search finds. -/
theorem numberRules_eq_ok (t : Std.HashMap String UInt32) (i : ℕ) (rs : List Rule)
    (h : i + rs.length ≤ UInt32.size) :
    ∃ t', numberRules t i rs = .ok t' ∧ ∀ n : String, t'[n]? =
      t[n]?.or ((rs.findIdx? (·.name == n)).map fun j => UInt32.ofNat (i + j)) := by
  induction rs generalizing t i with
  | nil => exact ⟨t, rfl, fun n => by simp⟩
  | cons r rs ih =>
    rw [List.length_cons] at h
    have hk : operand "rule index" i = .ok (UInt32.ofNat i) := if_pos (by omega)
    obtain ⟨t', ht', hfind⟩ := ih (t.insertIfNew r.name (UInt32.ofNat i)) (i + 1) (by omega)
    refine ⟨t', ?_, fun n => ?_⟩
    · rw [numberRules, hk]
      exact ht'
    · rw [hfind, Std.HashMap.getElem?_insertIfNew, List.findIdx?_cons]
      by_cases hr : r.name = n
      · subst hr
        -- the name has the number that it had before, if it had one
        cases hold : t[r.name]? with
        | none => simp [Std.HashMap.mem_iff_isSome_getElem?, hold]
        | some k => simp [Std.HashMap.mem_iff_isSome_getElem?, hold]
      · have hshift : (fun j => UInt32.ofNat (i + 1 + j)) =
            (fun j => UInt32.ofNat (i + j)) ∘ (· + 1) := by
          funext j
          rw [Function.comp_apply, Nat.add_assoc, Nat.add_comm 1 j]
        simp only [beq_iff_eq, hr, false_and, if_false, hshift, Option.map_map]

theorem numberRules_eq_error (t : Std.HashMap String UInt32) (i : ℕ) (rs : List Rule)
    (hi : i ≤ UInt32.size) (h : UInt32.size < i + rs.length) :
    numberRules t i rs = .error (.operandOverflow "rule index" UInt32.size) := by
  induction rs generalizing t i with
  | nil =>
    rw [List.length_nil] at h
    omega
  | cons r rs ih =>
    rw [List.length_cons] at h
    rw [numberRules, operand]
    split
    · exact ih _ (i + 1) (by omega) (by omega)
    · obtain rfl : i = UInt32.size := by omega
      rfl

namespace Grammar

/-- The program of a grammar, where the numbers of rules come from a table that is made first. -/
def generateByTable (verify : Bool) (g : Grammar) : Except CompileError Program := do
  let t ← numberRules {} 0 g.rules
  let (rules, pool) ← (compileRules verify (fun n => t[n]?.map UInt32.toNat) g.rules).run {}
  pure ⟨rules, pool.consts⟩

theorem generateByTable_eq (g : Grammar) (verify : Bool) :
    g.generateByTable verify = g.generate verify := by
  rw [generateByTable, generate]
  split
  · next h =>
    rw [numberRules_eq_error {} 0 g.rules (Nat.zero_le _) (by omega)]
    rfl
  · next h =>
    obtain ⟨t, ht, hfind⟩ := numberRules_eq_ok {} 0 g.rules (by omega)
    have hlookup : (fun n => t[n]?.map UInt32.toNat) = g.ruleIndex? := by
      funext n
      rw [hfind, Std.HashMap.getElem?_empty, Option.none_or, Option.map_map]
      cases hi : g.rules.findIdx? (·.name == n) with
      | none => exact hi.symm
      | some i =>
        have hlt := ruleIndex?_lt hi
        rw [Option.map_some, Function.comp_apply, Nat.zero_add, UInt32.toNat_ofNat_of_lt' (by omega)]
        exact hi.symm
    rw [ht, ← hlookup]
    rfl

variable {n : String}

theorem missingRule?_eq_some :
    g.missingRule? = some (.missingRule n) ↔ firstMissing g.ruleIndex? g.refs = some n := by
  simp [missingRule?, firstMissing]

/-- The check for missing rules and the compiler agree, if all numbers find room in an operand: they
stop at the same reference, the first in the grammar that no rule answers, and where there is none the
code has the numbers of the first rules of the names referred to, as a search of the grammar or of the
program finds them, or as a table has them. -/
theorem generate_references (g : Grammar) (verify : Bool)
    (ho : ∀ x, g.generate verify = .error x → ¬x.Overflow) :
    g.generateByTable verify = g.generate verify ∧
      (∀ n, g.missingRule? = some (.missingRule n) ↔ g.generate verify = .error (.undefinedRule n)) ∧
      (∀ n, g.generate verify = .error (.undefinedRule n) →
        ∃ before after, g.refs = before ++ n :: after ∧ g.ruleIndex? n = none ∧
          ∀ d ∈ before, g.ruleIndex? d ≠ none) ∧
      (g.missingRule? = none ↔ ∃ p, g.generate verify = .ok p) ∧
      ∀ p, g.generate verify = .ok p →
        (∀ n, p.ruleIndex? n = g.ruleIndex? n) ∧
        List.Forall₂ (fun r c => (∀ n, n ∈ r.body.coded ↔ n ∈ r.body.refs) ∧
          Numbered g.ruleIndex? r.body.coded (Block.read 0 c.code).ruleNumbers) g.rules p.rules := by
  have hv := g.generate_verify verify
  have hfar : ∀ sp < 2 * (g.size : ℤ), Scope.Far CompileError.Overflow sp := fun _ _ _ _ _ h => h
  obtain ⟨hok, herror⟩ := looks_generate (fun _ _ => trivial) hfar le_rfl
  rw [← hv] at hok herror
  have hfirst : (∀ n, firstMissing g.ruleIndex? g.refs = some n ↔
        g.generate verify = .error (.undefinedRule n)) ∧
      (firstMissing g.ruleIndex? g.refs = none ↔ ∃ p, g.generate verify = .ok p) := by
    cases hx : g.generate verify with
    | ok p => simp [hok p hx]
    | error x =>
      obtain ⟨n, rfl, hn⟩ := (herror x hx).resolve_left (ho x hx)
      simp [hn]
  refine ⟨g.generateByTable_eq verify, fun n => ?_, fun n hn => ?_, ?_, fun p hp => ⟨?_, ?_⟩⟩
  · rw [missingRule?_eq_some]
    exact hfirst.1 n
  · obtain ⟨hmissing, before, after, hrefs, hbefore⟩ :=
      List.find?_eq_some_iff_append.mp ((hfirst.1 n).mpr hn)
    refine ⟨before, after, hrefs, Option.isNone_iff_eq_none.mp hmissing, fun d hd h => ?_⟩
    have hd := hbefore d hd
    rw [h] at hd
    cases hd
  · rw [← hfirst.2, missingRule?, Option.map_eq_none_iff, firstMissing]
  · exact (generate_makes hp).ruleIndex?_eq
  · refine (generate_makes hp).shapes.imp fun r c hshape => ⟨fun n => r.body.mem_coded, ?_⟩
    have hsize (name : String) (i : ℕ) (hi : g.ruleIndex? name = some i) : i < UInt32.size :=
      (ruleIndex?_lt hi).trans_le (generate_makes hp).rules
    have henters := Code.Enters.of_assembled hsize (r.body.assembled _ _ _ hshape.2)
    obtain ⟨is, his, hread⟩ := henters.ruleNumbers
    rw [hread]
    exact his

/-- A list whose items are defined twice, with a delimiter that is defined and with one that is not. -/
theorem generate_references_list :
    let g (delimiter : String) : Grammar :=
      ⟨[⟨"list", .bounded (.rule "item") none none (some (.rule delimiter))⟩, ⟨"item", .any⟩,
        ⟨"item", .zeroOrMore (.rule "list")⟩, ⟨"comma", .literal "," false⟩]⟩
    (∀ x, (g "comma").generate true = .error x → ¬x.Overflow) ∧
      (∀ x, (g "semicolon").generate true = .error x → ¬x.Overflow) ∧
      (g "comma").missingRule? = none ∧
      (g "semicolon").missingRule? = some (.missingRule "semicolon") ∧
      ∃ p, (g "comma").generate true = .ok p ∧
        List.Forall₂ (fun r c => Numbered (g "comma").ruleIndex? r.body.coded
          (Block.read 0 c.code).ruleNumbers) (g "comma").rules p.rules := by
  intro g
  have hok : ((g "comma").generate true).isOk = true := by decide +kernel
  have hx : (g "semicolon").generate true = .error (.undefinedRule "semicolon") := by decide +kernel
  have ho : ∀ x, (g "comma").generate true = .error x → ¬x.Overflow := by
    intro x hx
    rw [hx] at hok
    cases hok
  have ho' : ∀ x, (g "semicolon").generate true = .error x → ¬x.Overflow := by
    intro x hx'
    obtain rfl := Except.error.inj (hx.symm.trans hx')
    exact not_false
  have hm : (g "comma").missingRule? = none := by decide +kernel
  obtain ⟨-, -, -, hnone, hcode⟩ := generate_references (g "comma") true ho
  obtain ⟨p, hp⟩ := hnone.mp hm
  have hrules := (hcode p hp).2.imp fun _ _ h => h.2
  exact ⟨ho, ho', hm, ((generate_references (g "semicolon") true ho').2.1 _).mpr hx, p, hp, hrules⟩

end Grammar
end PegMachine
