import PegMachine.Proofs.Code.Visits
import PegMachine.Proofs.Text.Legible

/-! Listings tell the code. A line tells its instruction before the remark comes, and the remark is that
on the constant named by the operands. So it can be passed over, even if it holds line ends and what
looks like other lines. A line also tells the lengths of the bodies below it, hence where they end. -/
namespace PegMachine

open Text

variable {c c' ws yes no body slots : Code} {m n k : UInt32} {consts : List Constant} {d ip : ℕ}
  {l r s : List Char}

namespace Text

/-- The text ends in a character that is not blank. -/
def Solid (l : List Char) : Prop := ∃ t c, l = t ++ [c] ∧ isBlank c = false

namespace Solid

theorem append_left (hr : Solid r) (l : List Char) : Solid (l ++ r) := by
  obtain ⟨t, c, rfl, hc⟩ := hr
  exact ⟨l ++ t, c, by simp, hc⟩

theorem of_forall (hne : l ≠ []) (h : ∀ c ∈ l, isBlank c = false) : Solid l :=
  ⟨l.dropLast, l.getLast hne, (List.dropLast_append_getLast hne).symm, h _ (List.getLast_mem hne)⟩

/-- The blanks at the end are those of what comes after. -/
theorem rdropWhile_append (hl : Solid l) (r : List Char) :
    (l ++ r).rdropWhile isBlank = l ++ r.rdropWhile isBlank := by
  obtain ⟨t, c, rfl, hc⟩ := hl
  induction r using List.reverseRecOn with
  | nil => simp [hc]
  | append_singleton r x ih =>
    rw [← List.append_assoc, List.rdropWhile_concat, List.rdropWhile_concat, ih]
    split <;> simp

end Solid

theorem toList_trimEnd (s : String) : (trimEnd s).toList = s.toList.rdropWhile isBlank :=
  String.toList_ofList

theorem not_isBlank_of_isDigit {c : Char} (h : c.isDigit = true) : isBlank c = false := by
  have hrange : 48 ≤ c.toNat ∧ c.toNat ≤ 57 := by
    simpa [Char.isDigit, UInt32.le_iff_toNat_le] using h
  have hapart : ∀ r ∈ blank, r.2 < 48 ∨ 57 < r.1 := by decide
  rw [isBlank, Ranges.has, List.any_eq_false]
  intro r hr
  have := hapart r hr
  simp only [Bool.and_eq_true, decide_eq_true_eq]
  omega

theorem solid_toString (n : ℕ) : Solid (toString n).toList := by
  obtain ⟨c, t, h, -⟩ := toString_head n
  have hne : (toString n).toList ≠ [] := by
    rw [h]
    exact List.cons_ne_nil c t
  exact .of_forall hne fun c hc => not_isBlank_of_isDigit (isDigit_of_mem hc)

end Text

namespace Opcode

/-- The characters that mnemonics are made of. -/
def ofMnemonic (c : Char) : Bool := c.isUpper || c == '_'

theorem mnemonic_chars (op : Opcode) : ∀ c ∈ op.mnemonic.toList, ofMnemonic c = true := by
  rw [← List.all_eq_true]
  cases op <;> decide +kernel

theorem legible_mnemonic : Legible ofMnemonic fun op : Opcode => op.mnemonic.toList :=
  .of_forall (fun _ _ h => mnemonic_injective (String.toList_injective h)) mnemonic_chars

theorem solid_mnemonic (op : Opcode) : Solid op.mnemonic.toList := by
  refine .of_forall (by cases op <;> decide) ?_
  have hblank : op.mnemonic.toList.all (!isBlank ·) = true := by cases op <;> decide +kernel
  simpa using hblank

end Opcode

namespace Code

/-- A list of words goes on with a digit or a comma. -/
def inDecimal (c : Char) : Bool := c.isDigit || c == ','

theorem apart_isDigit (hr : Apart inDecimal r) : Apart Char.isDigit r :=
  fun c hc => (Bool.or_eq_false_iff.mp (hr c hc)).1

theorem decimal_singleton (w : UInt32) : decimal [w] = toString w.toNat := rfl

theorem decimal_cons_cons (v w : UInt32) (ws : Code) :
    decimal (v :: w :: ws) = toString v.toNat ++ ", " ++ decimal (w :: ws) := by
  simp [decimal, String.intercalate_cons_cons]

theorem decimal_cons (w : UInt32) (ws : Code) :
    (decimal (w :: ws)).toList =
      (toString w.toNat).toList ++ ws.flatMap fun v => ',' :: ' ' :: (toString v.toNat).toList := by
  induction ws generalizing w with
  | nil => simp [decimal_singleton]
  | cons v ws ih =>
    rw [decimal_cons_cons, String.toList_append, String.toList_append, ih]
    simp

theorem legible_decimal : Legible inDecimal fun ws => (decimal ws).toList := by
  have hmore : Legible inDecimal
      (List.flatMap fun w : UInt32 => ',' :: ' ' :: (toString w.toNat).toList) := by
    refine .flatMap ?_ fun w => ⟨',', _, rfl, rfl, rfl⟩
    intro v w r s hr hs h
    exact legible_word hr hs (List.cons.inj (List.cons.inj h).2).2
  have hfirst : ∀ (ws : Code) (r : List Char), Apart inDecimal r →
      Apart Char.isDigit ((ws.flatMap fun w => ',' :: ' ' :: (toString w.toNat).toList) ++ r) := by
    intro ws r hr
    cases ws with
    | nil => exact apart_isDigit hr
    | cons w ws => simp
  have hempty : ∀ w ws (r s : List Char), Apart inDecimal r →
      r ≠ (decimal (w :: ws)).toList ++ s := by
    rintro w ws r s hr rfl
    obtain ⟨c, t, ht, hc⟩ := toString_head w.toNat
    rw [decimal_cons, ht] at hr
    simp [inDecimal, hc] at hr
  intro vs ws r s hr hs h
  cases vs with
  | nil =>
    cases ws with
    | nil => exact ⟨rfl, h⟩
    | cons w ws => exact absurd h (hempty w ws r s hr)
  | cons v vs =>
    cases ws with
    | nil => exact absurd h.symm (hempty v vs s r hs)
    | cons w ws =>
      simp only [decimal_cons, List.append_assoc] at h
      obtain ⟨rfl, hrest⟩ := legible_word (hfirst vs r hr) (hfirst ws s hs) h
      obtain ⟨rfl, hrs⟩ := hmore hr hs hrest
      exact ⟨rfl, hrs⟩

theorem solid_decimal (h : ws ≠ []) : Solid (decimal ws).toList := by
  induction ws with
  | nil => exact absurd rfl h
  | cons v ws ih =>
    cases ws with
    | nil => exact solid_toString _
    | cons w ws =>
      rw [decimal_cons_cons, String.toList_append]
      exact (ih (by simp)).append_left _

end Code

namespace Head

/-- The opcode that the head starts with. -/
def opcode : Head → Opcode
  | .instr i => i.opcode
  | .branch t _ _ => t.opcode
  | .loop _ => .whileMatched
  | .call _ _ _ => .call

/-- The operands as they are listed. -/
def listed : Head → String
  | .instr i => Code.decimal i.operands
  | .branch t a b =>
    Code.decimal t.operands ++ (if t.operands.isEmpty then "" else ", ") ++ "then " ++ toString a
      ++ ", else " ++ toString b
  | .loop a => "body " ++ toString a
  | .call f pops slots =>
    toString f.toNat ++ ", pop " ++ toString pops.toNat ++ ", [" ++ Code.decimal slots ++ "]"

/-- The remark on the constant that the head refers to. -/
def note (consts : List Constant) : Head → Option String
  | .instr i => i.constant?.map (constantNote consts)
  | .branch t _ _ => t.constant?.map (constantNote consts)
  | .loop _ => none
  | .call f _ _ => some (constantNote consts f)

/-- The line of a head. -/
def line (consts : List Constant) (d ip : ℕ) (hd : Head) : Line :=
  .entry d ip hd.opcode hd.listed (hd.note consts)

/-- The layout of the words from the opcode on. -/
def shape : Head → Shape
  | .instr i => .plain i.operands.length
  | .branch t _ _ => .condition t.operands.length
  | .loop _ => .loop
  | .call _ _ _ => .call

theorem shape_opcode (hd : Head) : hd.opcode.shape = hd.shape := by
  cases hd with
  | instr i => cases i <;> rfl
  | branch t a b => cases t <;> rfl
  | loop a => rfl
  | call f pops slots => rfl

theorem instr_inj {i i' : Instr} (hop : i.opcode = i'.opcode) (hops : i.operands = i'.operands) :
    i = i' := by
  have hread : ∀ i : Instr, Head.read i.opcode.form i.operands = some (.instr i, []) := by
    intro i
    cases i <;> rfl
  have h := hread i
  rw [hop, hops, hread i'] at h
  cases h
  rfl

theorem test_inj {t t' : Test} (hop : t.opcode = t'.opcode) (hops : t.operands = t'.operands) :
    t = t' := by
  have h := Block.head_read_test t 0 0 []
  rw [hop, hops, Block.head_read_test t' 0 0 []] at h
  cases h
  rfl

/-- The operands of a test, each with a comma after it. -/
theorem listed_test (t : Test) (r : List Char) :
    (Code.decimal t.operands).toList ++ ((if t.operands.isEmpty then "" else ", ").toList ++ r) =
      (t.operands.flatMap fun w => (toString w.toNat).toList ++ [',', ' ']) ++ r := by
  cases t <;> simp [Test.operands, Code.decimal]

theorem legible_test : Legible Char.isDigit
    (List.flatMap fun w : UInt32 => (toString w.toNat).toList ++ [',', ' ']) := by
  refine .flatMap (p := fun _ => false) ?_ ?_
  · intro v w r s _ _ h
    simp only [List.append_assoc] at h
    obtain ⟨rfl, hrs⟩ := legible_word (by simp) (by simp) h
    exact ⟨rfl, (List.cons.inj (List.cons.inj hrs).2).2⟩
  · intro w
    obtain ⟨c, t, ht, hc⟩ := toString_head w.toNat
    exact ⟨c, t ++ [',', ' '], by rw [ht, List.cons_append], rfl, hc⟩

variable {hd hd' : Head}

/-- The operands after a given opcode tell the head. -/
theorem listed_inj (hop : hd.opcode = hd'.opcode) (hr : Apart Code.inDecimal r)
    (hs : Apart Code.inDecimal s) (h : hd.listed.toList ++ r = hd'.listed.toList ++ s) :
    hd = hd' ∧ r = s := by
  have hr' := Code.apart_isDigit hr
  have hs' := Code.apart_isDigit hs
  -- the layout of the words tells the four kinds of heads apart
  have hshape := congrArg Opcode.shape hop
  rw [shape_opcode, shape_opcode] at hshape
  cases hd with
  | instr i =>
    cases hd' with
    | instr i' =>
      obtain ⟨hops, hrs⟩ := Code.legible_decimal hr hs h
      exact ⟨congrArg _ (instr_inj hop hops), hrs⟩
    | _ => cases hshape
  | branch t a b =>
    cases hd' with
    | branch t' a' b' =>
      simp only [listed, String.toList_append, List.append_assoc, listed_test] at h
      obtain ⟨hops, hyes⟩ := legible_test (by simp) (by simp) h
      obtain ⟨rfl, hno⟩ := legible_toString (by simp) (by simp) (List.append_cancel_left hyes)
      obtain ⟨rfl, hrs⟩ := legible_toString hr' hs' (List.append_cancel_left hno)
      exact ⟨congrArg (branch · a b) (test_inj hop hops), hrs⟩
    | _ => cases hshape
  | loop a =>
    cases hd' with
    | loop a' =>
      simp only [listed, String.toList_append, List.append_assoc] at h
      obtain ⟨rfl, hrs⟩ := legible_toString hr' hs' (List.append_cancel_left h)
      exact ⟨rfl, hrs⟩
    | _ => cases hshape
  | call f pops slots =>
    cases hd' with
    | call f' pops' slots' =>
      simp only [listed, String.toList_append, List.append_assoc] at h
      obtain ⟨rfl, hpops⟩ := legible_word (by simp) (by simp) h
      obtain ⟨rfl, hslots⟩ := legible_word (by simp) (by simp) (List.append_cancel_left hpops)
      obtain ⟨rfl, hend⟩ := Code.legible_decimal (by simp [Code.inDecimal])
        (by simp [Code.inDecimal]) (List.append_cancel_left hslots)
      exact ⟨rfl, List.append_cancel_left hend⟩
    | _ => cases hshape

theorem listed_cases (consts : List Constant) (hd : Head) :
    hd.listed = "" ∧ hd.note consts = none ∨ Solid hd.listed.toList := by
  cases hd with
  | instr i =>
    by_cases hi : i.operands = []
    · left
      cases i <;> first | exact ⟨rfl, rfl⟩ | exact absurd hi (List.cons_ne_nil _ _)
    · exact .inr (Code.solid_decimal hi)
  | branch t a b =>
    right
    rw [listed, String.toList_append]
    exact (solid_toString b).append_left _
  | loop a =>
    right
    rw [listed, String.toList_append]
    exact (solid_toString a).append_left _
  | call f pops slots =>
    right
    rw [listed, String.toList_append]
    exact Solid.append_left ⟨[], ']', rfl, by decide⟩ _

/-- The remark at the end of a line, without the blanks at its own end. -/
def remark : Option String → List Char
  | some n => ' ' :: ' ' :: ';' :: (' ' :: n.toList).rdropWhile isBlank
  | none => []

theorem rdropWhile_remark (hl : Solid l) (note : Option String) :
    (l ++ (match note with
      | some n => "  ; " ++ n
      | none => "").toList).rdropWhile isBlank = l ++ remark note := by
  rw [hl.rdropWhile_append]
  cases note with
  | none => rfl
  | some n =>
    have hmark : Solid [' ', ' ', ';'] := ⟨[' ', ' '], ';', rfl, by decide⟩
    have hsplit : ("  ; " ++ n).toList = [' ', ' ', ';'] ++ ' ' :: n.toList := by simp
    simp only [hsplit, hmark.rdropWhile_append]
    rfl

/-- The blanks between a mnemonic and the operands. -/
def gap (op : Opcode) : List Char := List.replicate (18 - op.mnemonic.toList.length) ' '

theorem gap_head (op : Opcode) : ∃ t, gap op = ' ' :: t := by
  cases op <;> exact ⟨_, rfl⟩

theorem rdropWhile_gap (op : Opcode) : (gap op).rdropWhile isBlank = [] := by
  rw [List.rdropWhile_eq_nil_iff]
  intro c hc
  obtain rfl := List.eq_of_mem_replicate hc
  decide

/-- What stands after the mnemonic. -/
def tail (consts : List Constant) (hd : Head) : List Char :=
  if hd.listed = "" then [] else gap hd.opcode ++ (hd.listed.toList ++ remark (hd.note consts))

theorem render_line (consts : List Constant) (d ip : ℕ) (hd : Head) :
    (hd.line consts d ip).render.toList = (Line.indent d).toList ++ ((Line.place ip).toList ++
      ("  ".toList ++ (hd.opcode.mnemonic.toList ++ hd.tail consts))) := by
  have hfront : Solid ((Line.indent d).toList ++ ((Line.place ip).toList ++
      ("  ".toList ++ hd.opcode.mnemonic.toList))) :=
    ((hd.opcode.solid_mnemonic.append_left _).append_left _).append_left _
  have hmnemonic : (alignLeft 18 hd.opcode.mnemonic).toList =
      hd.opcode.mnemonic.toList ++ gap hd.opcode := String.toList_ofList
  unfold line Line.render
  simp only [toList_trimEnd, String.toList_append, hmnemonic]
  rcases hd.listed_cases consts with ⟨hempty, hnote⟩ | hsolid
  · have htrim := hfront.rdropWhile_append (gap hd.opcode)
    rw [rdropWhile_gap] at htrim
    simpa [tail, hempty, hnote] using htrim
  · have hne : hd.listed ≠ "" := by
      rintro h
      obtain ⟨t, c, ht, -⟩ := hsolid
      simp [h] at ht
    have htrim := rdropWhile_remark (hsolid.append_left ((Line.indent d).toList ++
      ((Line.place ip).toList ++ ("  ".toList ++ (hd.opcode.mnemonic.toList ++ gap hd.opcode)))))
        (hd.note consts)
    simp only [tail, if_neg hne, List.append_assoc] at htrim ⊢
    exact htrim

/-- A tail does not go on with the mnemonic. -/
theorem apart_tail (hd : Head) (r : List Char) :
    Apart Opcode.ofMnemonic (hd.tail consts ++ '\n' :: r) := by
  unfold tail
  split
  · exact apart_cons.mpr (by decide)
  · obtain ⟨t, ht⟩ := gap_head hd.opcode
    rw [ht]
    exact apart_cons.mpr (by decide)

theorem apart_remark (note : Option String) (r : List Char) :
    Apart Code.inDecimal (remark note ++ '\n' :: r) := by
  cases note with
  | none => exact apart_cons.mpr (by decide)
  | some n => exact apart_cons.mpr (by decide)

theorem tail_inj (hop : hd.opcode = hd'.opcode)
    (h : hd.tail consts ++ '\n' :: r = hd'.tail consts ++ '\n' :: s) : hd = hd' ∧ r = s := by
  obtain ⟨t, ht⟩ := gap_head hd'.opcode
  unfold tail at h
  rw [hop, ht] at h
  -- a line without operands ends with its mnemonic, one with operands goes on with a blank
  by_cases hempty : hd.listed = "" <;> by_cases hempty' : hd'.listed = ""
  · rw [if_pos hempty, if_pos hempty'] at h
    have hsame : hd.listed.toList ++ [] = hd'.listed.toList ++ [] := by rw [hempty, hempty']
    exact ⟨(listed_inj hop apart_nil apart_nil hsame).1, (List.cons.inj h).2⟩
  · rw [if_pos hempty, if_neg hempty'] at h
    exact absurd (List.cons.inj h).1 (by decide)
  · rw [if_neg hempty, if_pos hempty'] at h
    exact absurd (List.cons.inj h).1 (by decide)
  · rw [if_neg hempty, if_neg hempty'] at h
    simp only [List.append_assoc] at h
    obtain ⟨rfl, hrs⟩ := listed_inj hop (apart_remark _ r) (apart_remark _ s)
      (List.append_cancel_left h)
    exact ⟨rfl, (List.cons.inj (List.append_cancel_left hrs)).2⟩

end Head

/-- The characters of a line and its end. -/
def Line.text (l : Line) : List Char := l.render.toList ++ ['\n']

theorem Line.toList_renderAll (ls : List Line) : (renderAll ls).toList = ls.flatMap text := by
  unfold text
  simp [renderAll, String.toList_join, List.flatMap_map]

/-- A line tells its head whatever stands below it. -/
theorem Head.legible_line (consts : List Constant) (d ip : ℕ) :
    Legible (fun _ => false) fun hd : Head => (hd.line consts d ip).text := by
  intro hd hd' r s _ _ h
  simp only [Line.text, render_line, List.append_assoc, List.singleton_append] at h
  have hline := List.append_cancel_left (List.append_cancel_left (List.append_cancel_left h))
  obtain ⟨hop, htail⟩ := Opcode.legible_mnemonic (hd.apart_tail r) (hd'.apart_tail s) hline
  exact tail_inj hop htail

namespace Code

/-- The listing of the code at place `ip` inside `d` bodies. -/
def text (consts : List Constant) (d ip : ℕ) (c : Code) : List Char :=
  ((Block.read ip c).lines consts d).flatMap Line.text

theorem toList_listing (consts : List Constant) (c : Code) :
    (c.listing consts).toList = text consts 0 0 c :=
  Line.toList_renderAll _

/-- The listing of the second body of a test, which is left out when it is empty. -/
def elseText (consts : List Constant) (d ip : ℕ) (no : Code) : List Char :=
  if 0 < no.length then (Line.mark d "else:").text ++ text consts (d + 1) ip no else []

theorem text_nil : text consts d ip [] = [] := by
  rw [text, Block.read_nil]
  rfl

theorem text_instr (i : Instr) : text consts d ip (i.words ++ ws) =
    ((Head.instr i).line consts d ip).text ++ text consts d (ip + i.words.length) ws := by
  rw [text, Block.read_instr]
  rfl

theorem text_test (t : Test) (hm : m.toNat = yes.length) (hn : n.toNat = no.length) :
    text consts d ip (t.words ++ m :: n :: (yes ++ (no ++ ws))) =
      ((Head.branch t yes.length no.length).line consts d ip).text ++
        ((Line.mark d "then:").text ++ (text consts (d + 1) (ip + 3 + t.operands.length) yes ++
          (elseText consts d (ip + 3 + t.operands.length + yes.length) no ++
            text consts d (ip + 3 + t.operands.length + yes.length + no.length) ws))) := by
  rw [text, Block.read_test hm hn]
  simp only [Block.lines, elseText, List.flatMap_append, List.flatMap_cons, List.append_assoc]
  split <;> rfl

theorem text_while (hn : n.toNat = body.length) :
    text consts d ip (Opcode.whileMatched.word :: n :: (body ++ ws)) =
      ((Head.loop body.length).line consts d ip).text ++
        (text consts (d + 1) (ip + 2) body ++ text consts d (ip + 2 + body.length) ws) := by
  rw [text, Block.read_while hn]
  simp only [Block.lines, List.flatMap_append, List.flatMap_cons, List.append_assoc]
  rfl

theorem text_call (f pops : UInt32) (hk : k.toNat = slots.length) :
    text consts d ip (Opcode.call.word :: f :: pops :: k :: (slots ++ ws)) =
      ((Head.call f pops slots).line consts d ip).text ++
        text consts d (ip + 4 + slots.length) ws := by
  rw [text, Block.read_call_cons hk]
  rfl

/-- Complete code that starts with a head, and the listing of what comes after the line of that. -/
inductive Opens (consts : List Constant) (d ip : ℕ) : Head → Code → List Char → Prop
  | instr (i : Instr) {rest : Code} (hc : rest.Complete) :
      Opens consts d ip (.instr i) (i.words ++ rest) (text consts d (ip + i.words.length) rest)
  | branch (t : Test) {m n : UInt32} {a b : ℕ} {yes no rest : Code} (hm : m.toNat = a)
      (hn : n.toNat = b) (hyes : yes.length = a) (hnolen : no.length = b) (hy : yes.Complete)
      (hno : no.Complete) (hc : rest.Complete) :
      Opens consts d ip (.branch t a b) (t.words ++ m :: n :: (yes ++ (no ++ rest)))
        ((Line.mark d "then:").text ++ (text consts (d + 1) (ip + 3 + t.operands.length) yes ++
          (elseText consts d (ip + 3 + t.operands.length + a) no ++
            text consts d (ip + 3 + t.operands.length + a + b) rest)))
  | loop {n : UInt32} {a : ℕ} {body rest : Code} (hn : n.toNat = a) (hlen : body.length = a)
      (hb : body.Complete) (hc : rest.Complete) :
      Opens consts d ip (.loop a) (Opcode.whileMatched.word :: n :: (body ++ rest))
        (text consts (d + 1) (ip + 2) body ++ text consts d (ip + 2 + a) rest)
  | call (f pops : UInt32) {k : UInt32} {slots rest : Code} (hk : k.toNat = slots.length)
      (hc : rest.Complete) :
      Opens consts d ip (.call f pops slots)
        (Opcode.call.word :: f :: pops :: k :: (slots ++ rest))
        (text consts d (ip + 4 + slots.length) rest)

/-- The line of the head comes first in the listing. -/
theorem Complete.opens (hc : c.Complete) (consts : List Constant) (d ip : ℕ) :
    c = [] ∨ ∃ hd below, Opens consts d ip hd c below ∧
      text consts d ip c = (hd.line consts d ip).text ++ below := by
  cases hc with
  | nil => exact .inl rfl
  | instr i hc => exact .inr ⟨_, _, .instr i hc, text_instr i⟩
  | branch t hm hn hy hno hc =>
    exact .inr ⟨_, _, .branch t hm hn rfl rfl hy hno hc, text_test t hm hn⟩
  | loop hn hb hc => exact .inr ⟨_, _, .loop hn rfl hb hc, text_while hn⟩
  | call f pops hk hc => exact .inr ⟨_, _, .call f pops hk hc, text_call f pops hk⟩

/-- Code ends where its listing does, or where its length says. -/
theorem Complete.eq_nil (hc : c.Complete) (hend : c.length = 0 ∨ r = [] ∧ s = [])
    (h : text consts d ip c ++ r = text consts d ip [] ++ s) : c = [] := by
  rcases hend with hlen | ⟨rfl, rfl⟩
  · exact List.length_eq_zero_iff.mp hlen
  · rcases hc.opens consts d ip with rfl | ⟨hd, below, -, htext⟩
    · rfl
    · rw [htext, text_nil] at h
      simp [Line.text] at h

theorem Opens.ne_nil {hd : Head} {below : List Char} (h : Opens consts d ip hd c below) :
    c ≠ [] := by
  cases h <;> exact List.cons_ne_nil _ _

/-- Code with the same listing starts with the same head. -/
theorem Complete.opens_alike {hd : Head} {below : List Char} (hc : c.Complete) (hc' : c'.Complete)
    (hend : c.length = c'.length ∨ r = [] ∧ s = []) (hopens : Opens consts d ip hd c below)
    (htext : text consts d ip c = (hd.line consts d ip).text ++ below)
    (h : text consts d ip c ++ r = text consts d ip c' ++ s) :
    ∃ below', Opens consts d ip hd c' below' ∧ below ++ r = below' ++ s := by
  rcases hc'.opens consts d ip with rfl | ⟨hd', below', hopens', htext'⟩
  · exact absurd (hc.eq_nil hend h) hopens.ne_nil
  · rw [htext, htext', List.append_assoc, List.append_assoc] at h
    obtain ⟨rfl, hrest⟩ := Head.legible_line consts d ip (fun _ _ => rfl) (fun _ _ => rfl) h
    exact ⟨below', hopens', hrest⟩

theorem elseText_inj {no' : Code} (hlen : no.length = no'.length)
    (hno : text consts (d + 1) ip no ++ r = text consts (d + 1) ip no' ++ s → no = no' ∧ r = s)
    (h : elseText consts d ip no ++ r = elseText consts d ip no' ++ s) : no = no' ∧ r = s := by
  unfold elseText at h
  rw [← hlen] at h
  by_cases hpos : 0 < no.length
  · rw [if_pos hpos, if_pos hpos, List.append_assoc, List.append_assoc] at h
    exact hno (List.append_cancel_left h)
  · rw [if_neg hpos, if_neg hpos] at h
    have hempty : no.length = 0 := Nat.eq_zero_of_not_pos hpos
    obtain rfl := List.length_eq_zero_iff.mp hempty
    obtain rfl := List.length_eq_zero_iff.mp (hlen.symm.trans hempty)
    exact ⟨rfl, h⟩

/-- The listing of complete code tells the code, and where it ends if its length is known. -/
theorem Complete.text_inj (hc : c.Complete) (hc' : c'.Complete)
    (hend : c.length = c'.length ∨ r = [] ∧ s = [])
    (h : text consts d ip c ++ r = text consts d ip c' ++ s) : c = c' ∧ r = s := by
  induction hc generalizing c' d ip r s with
  | nil =>
    obtain rfl := hc'.eq_nil (hend.imp Eq.symm And.symm) h.symm
    exact ⟨rfl, List.append_cancel_left h⟩
  | instr i hc ih =>
    obtain ⟨_, hopens, hbelow⟩ :=
      (Complete.instr i hc).opens_alike hc' hend (.instr i hc) (text_instr i) h
    cases hopens with
    | instr _ hrest =>
      have hend' := hend.imp_left fun hlen => by simpa using hlen
      obtain ⟨rfl, hrs⟩ := ih hrest hend' hbelow
      exact ⟨rfl, hrs⟩
  | branch t hm hn hy hno hc ihy ihn ih =>
    obtain ⟨_, hopens, hbelow⟩ := (Complete.branch t hm hn hy hno hc).opens_alike hc' hend
      (.branch t hm hn rfl rfl hy hno hc) (text_test t hm hn) h
    cases hopens with
    | branch _ hm' hn' hyes hnolen hy' hno' hrest =>
      obtain rfl := UInt32.toNat_inj.mp (hm.trans hm'.symm)
      obtain rfl := UInt32.toNat_inj.mp (hn.trans hn'.symm)
      simp only [List.append_assoc] at hbelow
      -- nothing marks where a body ends: its line has told the length
      obtain ⟨rfl, helse⟩ := ihy hy' (.inl hyes.symm) (List.append_cancel_left hbelow)
      obtain ⟨rfl, hbelow'⟩ := elseText_inj hnolen.symm (ihn hno' (.inl hnolen.symm)) helse
      have hend' := hend.imp_left fun hlen => by simpa using hlen
      obtain ⟨rfl, hrs⟩ := ih hrest hend' hbelow'
      exact ⟨rfl, hrs⟩
  | loop hn hb hc ihb ih =>
    obtain ⟨_, hopens, hbelow⟩ :=
      (Complete.loop hn hb hc).opens_alike hc' hend (.loop hn rfl hb hc) (text_while hn) h
    cases hopens with
    | loop hn' hlen hb' hrest =>
      obtain rfl := UInt32.toNat_inj.mp (hn.trans hn'.symm)
      rw [List.append_assoc, List.append_assoc] at hbelow
      obtain ⟨rfl, hbelow'⟩ := ihb hb' (.inl hlen.symm) hbelow
      have hend' := hend.imp_left fun hlen => by simpa using hlen
      obtain ⟨rfl, hrs⟩ := ih hrest hend' hbelow'
      exact ⟨rfl, hrs⟩
  | call f pops hk hc ih =>
    obtain ⟨_, hopens, hbelow⟩ :=
      (Complete.call f pops hk hc).opens_alike hc' hend (.call f pops hk hc) (text_call f pops hk) h
    cases hopens with
    | call _ _ hk' hrest =>
      obtain rfl := UInt32.toNat_inj.mp (hk.trans hk'.symm)
      have hend' := hend.imp_left fun hlen => by simpa using hlen
      obtain ⟨rfl, hrs⟩ := ih hrest hend' hbelow
      exact ⟨rfl, hrs⟩

/-- Code that has a height is told by its listing, whatever the constants: no two pieces of it are
listed alike. Neither the heights before them nor the arithmetic need be the same. -/
theorem listing_eq_iff {ε ε' : Type} (a : Arithmetic ε) (a' : Arithmetic ε') {h h' z z' : ℤ}
    (hz : c.heightIn a h = .ok z) (hz' : c'.heightIn a' h' = .ok z') (consts : List Constant) :
    c.listing consts = c'.listing consts ↔ c = c' := by
  constructor
  · intro hsame
    have htext := congrArg String.toList hsame
    rw [toList_listing, toList_listing] at htext
    have hnothing : text consts 0 0 c ++ [] = text consts 0 0 c' ++ [] := by rw [htext]
    exact ((Complete.of_height hz).text_inj (.of_height hz') (.inr ⟨rfl, rfl⟩) hnothing).1
  · rintro rfl
    rfl

/-- A call whose function holds what looks like a line of its own, after a height that goes round the
range of 32 bits, and that code with the line. -/
theorem listing_ne_of_lookalike :
    let lookalike := "\n0010  PUSH_CURR_POS"
    let consts : List Constant := [.function ⟨[], lookalike⟩]
    let c : Code := [4, 0x80000001, 1, 4, 0x80000000, 1, 24, 0, 0, 0]
    c.heightIn .wrapping 0 = .ok 2 ∧ (c ++ [1]).heightIn .wrapping 0 = .ok 3 ∧
      c.listing consts ≠ (c ++ [1]).listing consts := by
  intro lookalike consts c
  have hz : c.heightIn .wrapping 0 = .ok 2 := by decide +kernel
  have hz' : (c ++ [1]).heightIn .wrapping 0 = .ok 3 := by decide +kernel
  refine ⟨hz, hz', ?_⟩
  rw [ne_eq, listing_eq_iff .wrapping .wrapping hz hz' consts]
  decide

end Code

end PegMachine
