import Mathlib
import PegMachine.Compile.Pool
import PegMachine.Proofs.Code.Reading

/-! Numbering constants. Whatever else is asked of a pool in between, it holds the constants it has been
brought, each once and in the order in which they were first seen, and the numbers it gives out are
their places. A pool that looks numbers up in a table does the same as one that searches its list. -/
namespace PegMachine

deriving instance Hashable for ClassPart, CharClass, Expectation, ActionFn, Constant

/-- A pool with a table of the numbers of its constants. -/
structure IndexedPool extends Pool where
  table : Std.HashMap Constant UInt32 := {}

namespace IndexedPool

/-- The number of a constant, and the pool that has it. -/
def intern (p : IndexedPool) (c : Constant) : Except CompileError (UInt32 × IndexedPool) :=
  match p.table[c]? with
  | some i => .ok (i, p)
  | none => do
    let i ← operand "constant index" p.consts.length
    .ok (i, ⟨⟨p.consts ++ [c]⟩, p.table.insert c i⟩)

/-- The table has what a search of the list finds. -/
def Indexed (p : IndexedPool) : Prop :=
  ∀ c, p.table[c]? = (p.consts.idxOf? c).map UInt32.ofNat

end IndexedPool

section

variable {l : List Constant} {c d : Constant}

theorem idxOf?_concat (h : l.idxOf? c = none) (d : Constant) :
    (l ++ [c]).idxOf? d = if c = d then some l.length else l.idxOf? d := by
  have happ : (l ++ [c]).idxOf? d = (l.idxOf? d).or (([c].idxOf? d).map (· + l.length)) :=
    List.findIdx?_append
  rw [happ, List.idxOf?_singleton]
  by_cases hcd : c = d
  · subst hcd
    simp [h]
  · simp [hcd]

theorem eraseDups_concat (l : List Constant) (c : Constant) :
    (l ++ [c]).eraseDups = if c ∈ l then l.eraseDups else l.eraseDups ++ [c] := by
  rw [List.eraseDups_append]
  split
  · next h => simp [List.removeAll, h]
  · next h => simp [List.removeAll, h, List.eraseDups_cons]

theorem eraseDups_prefix_append (l l' : List Constant) : l.eraseDups <+: (l ++ l').eraseDups := by
  rw [List.eraseDups_append]
  exact List.prefix_append _ _

end

namespace Pool

/-- What is asked of a pool. -/
inductive Request where
  | intern (c : Constant)
  | get (i : UInt32)
  | size
  | consts

/-- What a pool answers. -/
inductive Reply where
  | number (i : UInt32)
  | constant (c : Option Constant)
  | size (n : ℕ)
  | consts (cs : List Constant)
  deriving DecidableEq

/-- The constant that a request brings. -/
def Request.constant? : Request → Option Constant
  | .intern c => some c
  | _ => none

/-- The constants that are brought, one after the other. -/
def brought (rs : List Request) : List Constant := rs.filterMap Request.constant?

theorem brought_cons (r : Request) (rs : List Request) :
    brought (r :: rs) = r.constant?.toList ++ brought rs := by
  cases r <;> rfl

/-- The answer of a pool that holds the constants `K`, with what the request brings. -/
def Request.answer (K : List Constant) : Request → Reply
  | .intern c => .number (UInt32.ofNat (K.idxOf c))
  | .get i => .constant K[i.toNat]?
  | .size => .size K.length
  | .consts => .consts K

/-- The answers to requests after the constants `cs` have been brought. -/
def answers (cs : List Constant) : List Request → List Reply
  | [] => []
  | r :: rs => r.answer (cs ++ r.constant?.toList).eraseDups :: answers (cs ++ r.constant?.toList) rs

/-- A way to keep a pool. -/
structure Keeper (P : Type) where
  intern : P → Constant → Except CompileError (UInt32 × P)
  pool : P → Pool

/-- The pool as a list. -/
def listed : Keeper Pool := ⟨Pool.intern, id⟩

/-- The pool as a list and a table. -/
def indexed : Keeper IndexedPool := ⟨IndexedPool.intern, IndexedPool.toPool⟩

namespace Keeper

variable {P : Type}

def serve (k : Keeper P) (p : P) : Request → Except CompileError (Reply × P)
  | .intern c => do
    let (i, q) ← k.intern p c
    .ok (.number i, q)
  | .get i => .ok (.constant ((k.pool p).get? i), p)
  | .size => .ok (.size (k.pool p).size, p)
  | .consts => .ok (.consts (k.pool p).consts, p)

def serveAll (k : Keeper P) : P → List Request → Except CompileError (List Reply × P)
  | p, [] => .ok ([], p)
  | p, r :: rs => do
    let (a, q) ← k.serve p r
    let (as, q) ← serveAll k q rs
    .ok (a :: as, q)

/-- Where `Inv` holds it holds on, and constants get the numbers that the pool gives them. -/
def Faithful (k : Keeper P) (Inv : P → Prop) : Prop :=
  ∀ p c i q, Inv p → (k.pool p).intern c = .ok (i, q) →
    ∃ p', k.intern p c = .ok (i, p') ∧ k.pool p' = q ∧ Inv p'

end Keeper

theorem listed_faithful : listed.Faithful fun _ => True := by
  intro p c i q _ h
  exact ⟨q, h, rfl, trivial⟩

/-- A table that is right stays right, and makes no difference. -/
theorem indexed_faithful : indexed.Faithful IndexedPool.Indexed := by
  intro p c i q hp h
  change p.toPool.intern c = _ at h
  change ∃ p' : IndexedPool, p.intern c = .ok (i, p') ∧ p'.toPool = q ∧ p'.Indexed
  have hc := hp c
  unfold intern at h
  unfold IndexedPool.intern
  split at h
  · next n hn =>
    obtain ⟨rfl, rfl⟩ := Prod.mk.inj (Except.ok.inj h)
    rw [hn] at hc
    exact ⟨p, by rw [hc]; rfl, rfl, hp⟩
  · next hn =>
    obtain ⟨j, hj, h⟩ := except_bind_eq_ok.mp h
    obtain ⟨rfl, rfl⟩ := Prod.mk.inj (Except.ok.inj h)
    rw [hn] at hc
    refine ⟨⟨⟨p.consts ++ [c]⟩, p.table.insert c j⟩, by rw [hc, Option.map_none, hj]; rfl, rfl, ?_⟩
    intro d
    dsimp only
    rw [Std.HashMap.getElem?_insert, idxOf?_concat hn d, hp d]
    by_cases hcd : c = d
    · rw [if_pos (beq_iff_eq.mpr hcd), if_pos hcd, ← operand_toNat hj]
      simp
    · rw [if_neg (by simpa using hcd), if_neg hcd]

variable {P : Type} {k : Keeper P} {Inv : P → Prop} {p : P} {cs : List Constant} {c : Constant}
  {r : Request} {rs : List Request} {n : ℕ}

/-- A constant gets its place among those seen so far, itself among them. -/
theorem intern_eraseDups (h : (cs ++ [c]).eraseDups.length ≤ UInt32.size) :
    (Pool.mk cs.eraseDups).intern c =
      .ok (UInt32.ofNat ((cs ++ [c]).eraseDups.idxOf c), ⟨(cs ++ [c]).eraseDups⟩) := by
  rw [eraseDups_concat] at h ⊢
  unfold Pool.intern
  dsimp only
  split
  · next n hn =>
    have hc : c ∈ cs.eraseDups := by
      rw [← List.isSome_idxOf?, hn]
      rfl
    rw [if_pos (List.mem_eraseDups.mp hc), List.idxOf_eq_getD_idxOf?, hn]
    rfl
  · next hn =>
    have hc : c ∉ cs := fun hc => List.idxOf?_eq_none_iff.mp hn (List.mem_eraseDups.mpr hc)
    rw [if_neg hc] at h ⊢
    rw [List.length_append, List.length_singleton] at h
    rw [operand, if_pos (by omega), List.idxOf_eq_getD_idxOf?, idxOf?_concat hn c, if_pos rfl]
    rfl

/-- What is answered when `cs` have been brought before, and that they are still held. -/
def Keeper.Keeps (k : Keeper P) (Inv : P → Prop) (cs : List Constant) (p : P) : Prop :=
  Inv p ∧ k.pool p = ⟨cs.eraseDups⟩

namespace Keeper.Faithful

theorem serve (hk : k.Faithful Inv) (hp : k.Keeps Inv cs p)
    (h : (cs ++ r.constant?.toList).eraseDups.length ≤ UInt32.size) :
    ∃ q, k.serve p r = .ok (r.answer (cs ++ r.constant?.toList).eraseDups, q) ∧
      k.Keeps Inv (cs ++ r.constant?.toList) q := by
  obtain ⟨hinv, hpool⟩ := hp
  cases r with
  | intern c =>
    have hi := intern_eraseDups h
    rw [← hpool] at hi
    obtain ⟨q, hq, hpq, hinv'⟩ := hk p c _ _ hinv hi
    refine ⟨q, ?_, hinv', hpq⟩
    rw [Keeper.serve, hq]
    rfl
  | get | size | consts =>
    refine ⟨p, ?_, hinv, ?_⟩
    · simp [Keeper.serve, hpool, Request.answer, Request.constant?, Pool.get?, Pool.size]
    · simpa [Request.constant?] using hpool

theorem serveAll (hk : k.Faithful Inv) (hp : k.Keeps Inv cs p)
    (h : (cs ++ brought rs).eraseDups.length ≤ UInt32.size) :
    ∃ q, k.serveAll p rs = .ok (answers cs rs, q) ∧ k.Keeps Inv (cs ++ brought rs) q := by
  induction rs generalizing cs p with
  | nil =>
    refine ⟨p, rfl, ?_⟩
    simpa [brought] using hp
  | cons r rs ih =>
    rw [brought_cons, ← List.append_assoc] at h ⊢
    have hle := (eraseDups_prefix_append (cs ++ r.constant?.toList) (brought rs)).length_le
    obtain ⟨q, hq, hkeeps⟩ := hk.serve hp (hle.trans h)
    obtain ⟨q', hq', hkeeps'⟩ := ih hkeeps h
    refine ⟨q', ?_, hkeeps'⟩
    rw [Keeper.serveAll, hq]
    dsimp only [bind, Except.bind]
    rw [hq', answers]

end Keeper.Faithful

theorem getElem?_answers (cs : List Constant) (rs : List Request) (n : ℕ) :
    (answers cs rs)[n]? =
      rs[n]?.map fun r => r.answer (cs ++ brought (rs.take (n + 1))).eraseDups := by
  induction rs generalizing cs n with
  | nil => rfl
  | cons r rs ih =>
    cases n with
    | zero =>
      rw [List.take_succ_cons, List.take_zero, brought_cons]
      simp [answers, brought]
    | succ n =>
      rw [answers, List.getElem?_cons_succ, List.getElem?_cons_succ, ih, List.take_succ_cons,
        brought_cons, List.append_assoc]

/-- What is held at some time is the beginning of what is held in the end. -/
theorem eraseDups_take (rs : List Request) (n : ℕ) :
    (brought (rs.take n)).eraseDups <+: (brought rs).eraseDups := by
  have hrs : brought rs = brought (rs.take n) ++ brought (rs.drop n) := by
    rw [brought, brought, brought, ← List.filterMap_append, List.take_append_drop]
  rw [hrs]
  exact eraseDups_prefix_append _ _

theorem mem_eraseDups_take {m : ℕ} (hc : rs[n]? = some (.intern c)) (hm : n ≤ m) :
    c ∈ (brought (rs.take (m + 1))).eraseDups := by
  have hmem : Request.intern c ∈ rs.take (m + 1) := by
    refine List.mem_of_getElem? (i := n) ?_
    rw [List.getElem?_take_of_lt (by omega), hc]
  exact List.mem_eraseDups.mpr (List.mem_filterMap.mpr ⟨_, hmem, rfl⟩)

/-- The place of a constant is the same from the time when it was brought. -/
theorem idxOf_eraseDups_take {m : ℕ} (hc : rs[n]? = some (.intern c)) (hm : n ≤ m) :
    (brought (rs.take (m + 1))).eraseDups.idxOf c = (brought rs).eraseDups.idxOf c := by
  obtain ⟨t, ht⟩ := eraseDups_take rs (m + 1)
  rw [← ht, List.idxOf_append_of_mem (mem_eraseDups_take hc hm)]

theorem getElem?_of_idxOf? {l : List Constant} {i : ℕ} (h : l.idxOf? c = some i) : l[i]? = some c := by
  obtain ⟨hlt, hc, -⟩ := List.idxOf?_eq_some_iff.mp h
  rw [List.getElem?_eq_getElem hlt, hc]

/-- What the number of a constant is, and what is found under it later. -/
theorem answers_intern (hc : rs[n]? = some (.intern c))
    (h : (brought rs).eraseDups.length ≤ UInt32.size) :
    ∃ i : UInt32, (answers [] rs)[n]? = some (.number i) ∧
      (brought rs).eraseDups.idxOf? c = some i.toNat ∧
      ∀ m, n ≤ m → rs[m]? = some (.get i) → (answers [] rs)[m]? = some (.constant (some c)) := by
  have hmem := (eraseDups_take rs (n + 1)).subset (mem_eraseDups_take hc le_rfl)
  obtain ⟨k, hk⟩ := Option.isSome_iff_exists.mp (List.isSome_idxOf?.mpr hmem)
  have hplace : (brought rs).eraseDups.idxOf c = k := by
    rw [List.idxOf_eq_getD_idxOf?, hk, Option.getD_some]
  have hlt := List.idxOf_lt_length_of_mem hmem
  have hnat : (UInt32.ofNat k).toNat = k := UInt32.toNat_ofNat_of_lt' (by omega)
  refine ⟨UInt32.ofNat k, ?_, by rw [hnat, hk], fun m hm hg => ?_⟩
  · rw [getElem?_answers, hc, Option.map_some, List.nil_append, Request.answer,
      idxOf_eraseDups_take hc le_rfl, hplace]
  · rw [getElem?_answers, hg, Option.map_some, List.nil_append, Request.answer, hnat, ← hplace,
      ← idxOf_eraseDups_take hc hm, List.getElem?_idxOf (mem_eraseDups_take hc hm)]

/-- Constants are numbered in the order in which they are first brought, whatever is asked in between:
in the end the pool is the list of the distinct ones in that order, and each number that was given is
the place of its constant in it. From the time it was given, the constant is found there. Equal
constants have the same number, and others have others. -/
theorem serveAll_first_seen (rs : List Request)
    (h : (brought rs).eraseDups.length ≤ UInt32.size) :
    ∃ (replies : List Reply) (p : Pool) (q : IndexedPool),
      listed.serveAll {} rs = .ok (replies, p) ∧ indexed.serveAll {} rs = .ok (replies, q) ∧
      q.toPool = p ∧ p.consts = (brought rs).eraseDups ∧
      (∀ (n : ℕ) (c : Constant), rs[n]? = some (.intern c) → ∃ i, replies[n]? = some (.number i) ∧
        p.consts.idxOf? c = some i.toNat ∧ p.get? i = some c ∧
        ∀ m, n ≤ m → rs[m]? = some (.get i) → replies[m]? = some (.constant (some c))) ∧
      ∀ (m n : ℕ) (c d : Constant) (i j : UInt32), rs[m]? = some (.intern c) →
        rs[n]? = some (.intern d) → replies[m]? = some (.number i) → replies[n]? = some (.number j) →
        (i = j ↔ c = d) := by
  have hempty : IndexedPool.Indexed {} := fun c => Std.HashMap.getElem?_empty
  have hlisted : listed.Keeps (fun _ => True) [] {} := ⟨trivial, rfl⟩
  have hindexed : indexed.Keeps IndexedPool.Indexed [] {} := ⟨hempty, rfl⟩
  obtain ⟨p, hp, -, hpool⟩ := listed_faithful.serveAll hlisted h
  obtain ⟨q, hq, -, hpool'⟩ := indexed_faithful.serveAll hindexed h
  obtain rfl : p = ⟨(brought rs).eraseDups⟩ := hpool
  refine ⟨_, _, q, hp, hq, hpool', rfl, ?_, ?_⟩
  · intro n c hc
    obtain ⟨i, hn, hi, hget⟩ := answers_intern hc h
    exact ⟨i, hn, hi, getElem?_of_idxOf? hi, hget⟩
  · intro m n c d i j hc hd hi hj
    obtain ⟨i', hi', hplace, -⟩ := answers_intern hc h
    obtain ⟨j', hj', hplace', -⟩ := answers_intern hd h
    obtain ⟨⟩ := hi.symm.trans hi'
    obtain ⟨⟩ := hj.symm.trans hj'
    constructor
    · rintro rfl
      have hsame := (getElem?_of_idxOf? hplace).symm.trans (getElem?_of_idxOf? hplace')
      exact Option.some.inj hsame
    · rintro rfl
      exact UInt32.toNat_inj.mp (Option.some.inj (hplace.symm.trans hplace'))

/-- A constant is brought a second time, after another one and between readings. -/
theorem serveAll_first_seen_twice :
    let rs : List Request := [.intern .null, .get 0, .intern (.string "a"), .size, .intern .null,
      .consts, .get 1]
    let replies : List Reply := [.number 0, .constant (some .null), .number 1, .size 2, .number 0,
      .consts [.null, .string "a"], .constant (some (.string "a"))]
    (brought rs).eraseDups.length ≤ UInt32.size ∧
      ∃ q, indexed.serveAll {} rs = .ok (replies, q) ∧ q.consts = [.null, .string "a"] := by
  intro rs replies
  have h : (brought rs).eraseDups.length ≤ UInt32.size := by decide
  have hlisted : listed.serveAll {} rs = .ok (replies, ⟨[.null, .string "a"]⟩) := rfl
  obtain ⟨replies', p, q, hp, hq, hpool, -⟩ := serveAll_first_seen rs h
  obtain ⟨⟩ := hlisted.symm.trans hp
  exact ⟨h, q, hq, by rw [hpool]⟩

end Pool
end PegMachine
