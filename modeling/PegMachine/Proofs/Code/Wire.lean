import Mathlib
import PegMachine.Code.Wire

/-! Programs as bytes, and back. Each codec is self-delimiting: what it wrote is read again
whatever stands behind it, and at every place where it may be cut off the reader runs out of bytes.
A codec is lossless because the codecs it is made of are. -/
namespace PegMachine

namespace Wire

variable {α β : Type}

/-- The bytes `w` and no more make the reader answer `a`, and it needs every one of them. -/
structure Reads (get : Reader α) (w : List UInt8) (a : α) : Prop where
  whole : ∀ s, get (w ++ s) = .ok (a, s)
  cut : ∀ b, b <+: w → b ≠ w → get b = .error .ended

theorem bind_ok {get : Reader α} {f : α → Reader β} {bs s : List UInt8} {a : α}
    (h : get bs = .ok (a, s)) : (get >>= f) bs = f a s := by
  show (get bs >>= fun x => f x.1 x.2) = _
  rw [h]
  rfl

theorem bind_error {get : Reader α} {f : α → Reader β} {bs : List UInt8} {e : WireError}
    (h : get bs = .error e) : (get >>= f) bs = .error e := by
  show (get bs >>= fun x => f x.1 x.2) = _
  rw [h]
  rfl

/-- A strict prefix of two pieces ends in the first or in the second. -/
theorem strictPrefix_append {b w w' : List UInt8} (h : b <+: w ++ w') (hne : b ≠ w ++ w') :
    (b <+: w ∧ b ≠ w) ∨ ∃ b', b = w ++ b' ∧ b' <+: w' ∧ b' ≠ w' := by
  by_cases hw : w <+: b
  · obtain ⟨b', rfl⟩ := hw
    refine .inr ⟨b', rfl, (List.prefix_append_right_inj w).mp h, ?_⟩
    rintro rfl
    exact hne rfl
  · have hb : b <+: w :=
      (List.prefix_or_prefix_of_prefix h (List.prefix_append w w')).resolve_right hw
    refine .inl ⟨hb, ?_⟩
    rintro rfl
    exact hw hb

namespace Reads

theorem pure (a : α) : Reads (pure a) [] a where
  whole _ := rfl
  cut _ h hne := (hne (List.prefix_nil.mp h)).elim

theorem bind {get : Reader α} {f : α → Reader β} {w w' : List UInt8} {a : α} {b : β}
    (h : Reads get w a) (h' : Reads (f a) w' b) : Reads (get >>= f) (w ++ w') b where
  whole s := by
    rw [List.append_assoc, bind_ok (h.whole _)]
    exact h'.whole s
  cut c hc hne := by
    rcases strictPrefix_append hc hne with ⟨hw, hcw⟩ | ⟨c', rfl, hw', hcw'⟩
    · exact bind_error (h.cut c hw hcw)
    · rw [bind_ok (h.whole _)]
      exact h'.cut c' hw' hcw'

/-- The same for bytes that were joined from the left. -/
theorem bind_append {get : Reader α} {f : α → Reader β} {w w' w'' : List UInt8} {a : α} {b : β}
    (h : Reads get w a) (h' : Reads (f a) (w' ++ w'') b) :
    Reads (get >>= f) (w ++ w' ++ w'') b := by
  rw [List.append_assoc]
  exact h.bind h'

/-- What the last reader read is turned into the answer. -/
theorem last {get : Reader α} {f : α → Reader β} {w : List UInt8} {a : α} {b : β}
    (h : Reads get w a) (hf : f a = Pure.pure b) : Reads (get >>= f) w b := by
  have hb := h.bind (f := f) (by rw [hf]; exact Reads.pure b)
  rwa [List.append_nil] at hb

theorem map {get : Reader α} {f : α → β} {w : List UInt8} {a : α} (h : Reads get w a) :
    Reads (get >>= fun a => Pure.pure (f a)) w (f a) :=
  h.last rfl

theorem byte (b : UInt8) : Reads byte [b] b where
  whole _ := rfl
  cut c h hne := by
    rcases List.prefix_cons_iff.mp h with rfl | ⟨t, rfl, ht⟩
    · rfl
    · exact (hne (by rw [List.prefix_nil.mp ht])).elim

theorem bytes (w : List UInt8) : Reads (bytes w.length) w w where
  whole s := by simp [Wire.bytes]
  cut c h hne := by
    have hlt : c.length < w.length :=
      Nat.lt_of_le_of_ne h.length_le fun he => hne (h.eq_of_length he)
    simp only [Wire.bytes, if_neg (Nat.not_le.mpr hlt)]

/-- A number below the bound of the reader is read from its groups. -/
theorem number (top : Nat) (htop : top < 128) :
    ∀ (k n : Nat), n < (top + 1) * 128 ^ k → Reads (getNat top (k + 1)) (putNat n) n := by
  intro k
  induction k with
  | zero =>
    intro n hn
    rw [Nat.pow_zero, Nat.mul_one] at hn
    have hb : (UInt8.ofNat n).toNat = n := by
      rw [UInt8.toNat_ofNat']
      omega
    rw [putNat, if_pos (by omega), getNat]
    refine (Reads.byte _).last ?_
    rw [hb, if_pos (by omega), if_neg (by omega)]
  | succ k ih =>
    intro n hn
    by_cases hs : n < 128
    · have hb : (UInt8.ofNat n).toNat = n := by
        rw [UInt8.toNat_ofNat']
        omega
      rw [putNat, if_pos hs, getNat]
      refine (Reads.byte _).last ?_
      rw [hb, if_pos hs, if_neg (by omega)]
    · have hb : (UInt8.ofNat (n % 128 + 128)).toNat = n % 128 + 128 := by
        rw [UInt8.toNat_ofNat']
        omega
      have hd : n / 128 < (top + 1) * 128 ^ k := by
        rw [Nat.pow_succ, ← Nat.mul_assoc] at hn
        exact Nat.div_lt_of_lt_mul (by omega)
      rw [putNat, if_neg hs, getNat]
      refine (Reads.byte _).bind ?_
      rw [hb, if_neg (by omega)]
      have hn' : n % 128 + 128 - 128 + 128 * (n / 128) = n := by omega
      have := (ih (n / 128) hd).map (f := fun m => n % 128 + 128 - 128 + 128 * m)
      rwa [hn'] at this

theorem length {n : Nat} (h : n < 2 ^ 64) : Reads length.get (length.put n) n :=
  number 1 (by omega) 9 n (by omega)

/-- The number of an alternative is read back. -/
theorem tag {n : Nat} (h : n < 2 ^ 32) : Reads tag (putNat n) n := by
  have hw := (number 15 (by omega) 4 n (by omega)).map (f := UInt32.ofNat)
  have ht := hw.map (f := UInt32.toNat)
  rwa [UInt32.toNat_ofNat_of_lt' h] at ht

end Reads

theorem putNat_ne_nil (n : Nat) : putNat n ≠ [] := by
  rw [putNat]
  split <;> simp

end Wire

open Wire

variable {α : Type}

/-- Every value whose bytes some address space holds is read back from them. -/
structure Codec.Lossless (c : Codec α) : Prop where
  put_ne_nil : ∀ a, c.put a ≠ []
  reads : ∀ a, (c.put a).length < 2 ^ 64 → Reads c.get (c.put a) a

namespace Wire

theorem word_lossless : word.Lossless where
  put_ne_nil _ := putNat_ne_nil _
  reads w _ := by
    have h := (Reads.number 15 (by omega) 4 w.toNat w.toNat_lt).map (f := UInt32.ofNat)
    rwa [UInt32.ofNat_toNat] at h

theorem bool_lossless : bool.Lossless where
  put_ne_nil _ := by simp [bool]
  reads b _ := by
    cases b
    · exact (Reads.byte 0).bind (Reads.pure false)
    · exact (Reads.byte 1).bind (Reads.pure true)

theorem ofUtf8?_utf8 (s : String) : Text.ofUtf8? (Text.utf8 s) = some s := by
  simp [Text.ofUtf8?, Text.utf8, String.fromUTF8?, s.isValidUTF8, String.fromUTF8]

/-- A character takes at most four bytes. -/
theorem length_utf8_singleton (c : Char) : (Text.utf8 (String.singleton c)).length ≤ 4 := by
  have h : (Text.utf8 (String.singleton c)).length = (String.singleton c).utf8ByteSize := by
    rw [← String.size_toByteArray]
    rfl
  rw [h, String.utf8ByteSize_singleton]
  exact c.utf8Size_le_four

theorem string_lossless : string.Lossless where
  put_ne_nil s := by simp [string, length, putNat_ne_nil]
  reads s h := by
    rw [string, List.length_append] at h
    refine (Reads.length (by omega)).bind ?_
    have hb := Reads.bytes (Text.utf8 s)
    refine hb.last ?_
    rw [ofUtf8?_utf8]

theorem char_lossless : char.Lossless where
  put_ne_nil c := string_lossless.put_ne_nil _
  reads c h := by
    have h4 := length_utf8_singleton c
    refine (Reads.length (by omega)).bind ?_
    rw [if_neg (by omega)]
    refine (Reads.bytes (Text.utf8 (String.singleton c))).last ?_
    rw [ofUtf8?_utf8, Option.map_some, String.toList_singleton]

variable {c : Codec α}

theorem option_lossless (hc : c.Lossless) : (option c).Lossless where
  put_ne_nil o := by cases o <;> simp [option]
  reads o h := by
    cases o with
    | none => exact (Reads.byte 0).bind (Reads.pure none)
    | some a =>
      rw [option, List.length_cons] at h
      exact (Reads.byte 1).bind ((hc.reads a (by omega)).map (f := some))

/-- Every value takes a byte at least. -/
theorem length_le_flatMap (hc : c.Lossless) (as : List α) :
    as.length ≤ (as.flatMap c.put).length := by
  induction as with
  | nil => exact Nat.zero_le _
  | cons a as ih =>
    have ha := List.length_pos_iff.mpr (hc.put_ne_nil a)
    rw [List.flatMap_cons, List.length_append, List.length_cons]
    omega

theorem reads_getMany (hc : c.Lossless) (as : List α) (h : (as.flatMap c.put).length < 2 ^ 64) :
    Reads (getMany c.get as.length) (as.flatMap c.put) as := by
  induction as with
  | nil => exact Reads.pure []
  | cons a as ih =>
    rw [List.flatMap_cons, List.length_append] at h
    exact (hc.reads a (by omega)).bind ((ih (by omega)).map (f := (a :: ·)))

theorem list_lossless (hc : c.Lossless) : (list c).Lossless where
  put_ne_nil as := by simp [list, length, putNat_ne_nil]
  reads as h := by
    rw [list, List.length_append] at h
    have hl := length_le_flatMap hc as
    exact (Reads.length (by omega)).bind (reads_getMany hc as (by omega))

theorem classPart_lossless : classPart.Lossless where
  put_ne_nil p := by cases p <;> simp [classPart, putNat_ne_nil]
  reads p h := by
    cases p with
    | char c =>
      rw [classPart, List.length_append] at h
      exact (Reads.tag (by omega)).bind (char_lossless.reads c (by omega)).map
    | range lo hi =>
      rw [classPart, List.length_append, List.length_append] at h
      have hlo := char_lossless.reads lo (by omega)
      have hhi := char_lossless.reads hi (by omega)
      exact (Reads.tag (by omega)).bind_append (hlo.bind hhi.map)

theorem charClass_lossless : charClass.Lossless where
  put_ne_nil k := by simp [charClass, bool]
  reads k h := by
    rw [charClass, List.length_append, List.length_append] at h
    have hp := (list_lossless classPart_lossless).reads k.parts (by omega)
    have hi := bool_lossless.reads k.inverted (by omega)
    have hc := bool_lossless.reads k.ignoreCase (by omega)
    exact hp.bind_append (hi.bind hc.map)

theorem expectation_lossless : expectation.Lossless where
  put_ne_nil e := by cases e <;> simp [expectation, putNat_ne_nil]
  reads e h := by
    cases e with
    | literal v d | charClass v d =>
      rw [expectation, List.length_append, List.length_append] at h
      have hv := string_lossless.reads v (by omega)
      have hd := string_lossless.reads d (by omega)
      exact (Reads.tag (by omega)).bind_append (hv.bind hd.map)
    | any d | other d =>
      rw [expectation, List.length_append] at h
      exact (Reads.tag (by omega)).bind (string_lossless.reads d (by omega)).map

theorem actionFn_lossless : actionFn.Lossless where
  put_ne_nil f := by simp [actionFn, string_lossless.put_ne_nil]
  reads f h := by
    rw [actionFn, List.length_append] at h
    have hp := (list_lossless string_lossless).reads f.params (by omega)
    exact hp.bind (string_lossless.reads f.code (by omega)).map

theorem constant_lossless : constant.Lossless where
  put_ne_nil k := by cases k <;> simp [constant, putNat_ne_nil]
  reads k h := by
    cases k with
    | failed | undefined | null | emptyArray => exact (Reads.tag (by omega)).last rfl
    | string s =>
      rw [constant, List.length_append] at h
      exact (Reads.tag (by omega)).bind (string_lossless.reads s (by omega)).map
    | charClass k =>
      rw [constant, List.length_append] at h
      exact (Reads.tag (by omega)).bind (charClass_lossless.reads k (by omega)).map
    | expectation e =>
      rw [constant, List.length_append] at h
      exact (Reads.tag (by omega)).bind (expectation_lossless.reads e (by omega)).map
    | function f =>
      rw [constant, List.length_append] at h
      exact (Reads.tag (by omega)).bind (actionFn_lossless.reads f (by omega)).map
    | bound b =>
      rw [constant, List.length_append] at h
      have hb := (option_lossless word_lossless).reads b (by omega)
      exact (Reads.tag (by omega)).bind hb.map

theorem ruleCode_lossless : ruleCode.Lossless where
  put_ne_nil r := by simp [ruleCode, string_lossless.put_ne_nil]
  reads r h := by
    rw [ruleCode, List.length_append] at h
    have hc := (list_lossless word_lossless).reads r.code (by omega)
    exact (string_lossless.reads r.name (by omega)).bind hc.map

theorem program_lossless : program.Lossless where
  put_ne_nil p := by simp [program, (list_lossless constant_lossless).put_ne_nil]
  reads p h := by
    rw [program, List.length_append] at h
    have hc := (list_lossless constant_lossless).reads p.consts (by omega)
    exact ((list_lossless ruleCode_lossless).reads p.rules (by omega)).bind hc.map

end Wire

namespace Program

theorem ofBytes_ok {p : Program} {bs s : List UInt8} (h : Wire.program.get bs = .ok (p, s)) :
    ofBytes bs = .ok p := by
  rw [ofBytes, h]
  rfl

theorem ofBytes_error {bs : List UInt8} {e : WireError} (h : Wire.program.get bs = .error e) :
    ofBytes bs = .error e := by
  rw [ofBytes, h]
  rfl

/-- A program is read back from its bytes, whatever stands behind them. From fewer bytes none is
read: the reader comes to their end. So the bytes of one program never begin those of another. Lengths
are written in 64 bits, which is enough for all that is in a program with less than 2⁶⁴ bytes. -/
theorem ofBytes_toBytes (p : Program) (h : p.toBytes.length < 2 ^ 64) :
    (∀ s, ofBytes (p.toBytes ++ s) = .ok p) ∧
      (∀ b, b <+: p.toBytes → b ≠ p.toBytes → ofBytes b = .error .ended) ∧
      ∀ q : Program, q.toBytes <+: p.toBytes → q = p := by
  have hp := Wire.program_lossless.reads p h
  refine ⟨fun s => ofBytes_ok (hp.whole s), fun b hb hne => ofBytes_error (hp.cut b hb hne), ?_⟩
  intro q hq
  have hq' := Wire.program_lossless.reads q (Nat.lt_of_le_of_lt hq.length_le h)
  obtain ⟨s, hs⟩ := hq
  have h₁ := ofBytes_ok (hq'.whole s)
  have h₂ := ofBytes_ok (hp.whole [])
  rw [List.append_nil] at h₂
  rw [show Wire.program.put q ++ s = Wire.program.put p from hs, h₂] at h₁
  exact (Except.ok.inj h₁).symm

/-- Words of one, two and five bytes, and characters of one and of two. -/
theorem ofBytes_toBytes_class :
    let p : Program := ⟨[⟨"a", [0, 300, 4294967295]⟩],
      [.string "é", .charClass ⟨[.char 'x', .range 'a' 'z'], true, false⟩, .bound (some 128)]⟩
    p.toBytes.length < 2 ^ 64 ∧ (∀ s, ofBytes (p.toBytes ++ s) = .ok p) ∧
      (∀ b, b <+: p.toBytes → b ≠ p.toBytes → ofBytes b = .error .ended) ∧
      ∀ q : Program, q.toBytes <+: p.toBytes → q = p := by
  intro p
  have h : p.toBytes.length < 2 ^ 64 := by decide +kernel
  exact ⟨h, ofBytes_toBytes p h⟩

end Program
end PegMachine
