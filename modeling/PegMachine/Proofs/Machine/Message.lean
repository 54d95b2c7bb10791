import Mathlib
import PegMachine.Machine.Report

/-! What the message of a failure depends on. Failures are recorded in the order of the run and as often
as they occur. The message names their descriptions in the order of their bytes, each once, and a set of
texts has only one such list. -/
namespace PegMachine

namespace Text

variable {s t u : String} {l l' : List String}

theorem utf8_injective : Function.Injective utf8 := by
  intro s t h
  apply String.toByteArray_inj.mp
  exact ByteArray.ext (Array.toList_inj.mp h)

theorem bytesLe_iff : bytesLe s t = true ↔ utf8 s ≤ utf8 t := decide_eq_true_iff

theorem bytesLe_total (s t : String) : (bytesLe s t || bytesLe t s) = true := by
  rw [Bool.or_eq_true, bytesLe_iff, bytesLe_iff]
  exact List.le_total _ _

theorem bytesLe_trans (hst : bytesLe s t = true) (htu : bytesLe t u = true) : bytesLe s u = true := by
  rw [bytesLe_iff] at *
  exact List.le_trans hst htu

theorem bytesLe_antisymm (hst : bytesLe s t = true) (hts : bytesLe t s = true) : s = t := by
  rw [bytesLe_iff] at *
  exact utf8_injective (List.le_antisymm hst hts)

theorem pairwise_bytesLe (l : List String) :
    (l.mergeSort bytesLe).Pairwise fun s t => bytesLe s t = true := by
  apply List.pairwise_mergeSort
  · intro s t u hst htu
    exact bytesLe_trans hst htu
  · exact bytesLe_total

/-- The texts stand in the order of their bytes, and none stands twice. -/
def Rising (l : List String) : Prop := l.Pairwise fun s t => utf8 s < utf8 t

namespace Rising

theorem of_pairwise (hl : l.Pairwise fun s t => bytesLe s t = true) (hd : l.Nodup) : Rising l := by
  apply (hl.and hd).imp
  rintro s t ⟨hst, hne⟩
  apply List.not_le.mp
  intro hts
  exact hne (bytesLe_antisymm hst (bytesLe_iff.mpr hts))

theorem nodup (h : Rising l) : l.Nodup := by
  apply h.imp
  rintro s t hst rfl
  exact List.lt_irrefl _ hst

/-- A set of texts can be listed so in one way only. -/
theorem unique (h : Rising l) (h' : Rising l') (hmem : ∀ s, s ∈ l ↔ s ∈ l') : l = l' := by
  have hperm : l.Perm l' := (List.perm_ext_iff_of_nodup h.nodup h'.nodup).mpr hmem
  apply hperm.eq_of_pairwise _ h h'
  intro s t _ _ hst hts
  exact absurd hts (List.lt_asymm hst)

end Rising
end Text

namespace ParseFailure

open Text

variable {es es' : List Expectation} {ds : List String} {d : String}

/-- The texts that describe what was expected. -/
def described (es : List Expectation) : Set String := {d | ∃ e ∈ es, e.description = d}

/-- Descriptions as a message joins them. -/
inductive Joined : List String → String → Prop
  | nothing : Joined [] "nothing"
  | one (d : String) : Joined [d] d
  | two (d d' : String) : Joined [d, d'] (d ++ " or " ++ d')
  | more {ds : List String} (h : 2 ≤ ds.length) (d : String) :
      Joined (ds ++ [d]) (", ".intercalate ds ++ ", or " ++ d)

theorem series_concat (h : ds ≠ []) (d : String) :
    series (ds ++ [d]) = ", ".intercalate ds ++ ", or " ++ d := by
  induction ds with
  | nil => exact absurd rfl h
  | cons c ds ih =>
    cases ds with
    | nil =>
      calc
        series [c, d] = c ++ ", " ++ ("or " ++ d) := rfl
        _ = c ++ (", " ++ "or ") ++ d := by simp only [String.append_assoc, -String.reduceAppend]
    | cons c' ds =>
      have hrest := ih (List.cons_ne_nil c' ds)
      simp only [List.cons_append] at hrest ⊢
      rw [series, hrest, String.intercalate_cons_cons]
      · simp only [String.append_assoc]
      · simp

theorem joined_phrase (ds : List String) : Joined ds (phrase ds) := by
  rcases ds with _ | ⟨a, _ | ⟨b, _ | ⟨c, ds⟩⟩⟩
  · exact .nothing
  · exact .one a
  · exact .two a b
  · obtain ⟨init, z, hz⟩ := (List.eq_nil_or_concat' (a :: b :: c :: ds)).resolve_left (by simp)
    have hlen : ds.length + 3 = init.length + 1 := by
      simpa using congrArg List.length hz
    have hne : init ≠ [] := by
      rintro rfl
      simp at hlen
    have hphrase : phrase (a :: b :: c :: ds) = series (init ++ [z]) := by
      rw [← hz]
      rfl
    rw [hphrase, series_concat hne, hz]
    exact .more (by omega) z

theorem nodup_eraseDups (l : List String) : l.eraseDups.Nodup := by
  induction l using List.reverseRecOn with
  | nil => exact List.nodup_nil
  | append_singleton l d ih =>
    rw [List.eraseDups_append]
    by_cases hd : d ∈ l
    · simpa [List.removeAll, hd] using ih
    · have hne : ∀ c ∈ l, c ≠ d := fun c hc => ne_of_mem_of_not_mem hc hd
      simpa [List.removeAll, hd, List.eraseDups_cons, List.nodup_append, ih] using hne

theorem rising_descriptions (es : List Expectation) : Rising (descriptions es) :=
  .of_pairwise (pairwise_bytesLe _) ((List.mergeSort_perm _ _).nodup_iff.mpr (nodup_eraseDups _))

theorem mem_described : d ∈ described es ↔ d ∈ es.map (·.description) :=
  List.mem_map.symm

theorem mem_descriptions : d ∈ descriptions es ↔ d ∈ described es := by
  rw [descriptions, List.mem_mergeSort, List.mem_eraseDups, mem_described]

/-- To sort the descriptions and then keep one of each run of equals comes to the same list. -/
theorem descriptions_eq_destutter (es : List Expectation) :
    descriptions es = ((es.map (·.description)).mergeSort bytesLe).destutter (· ≠ ·) := by
  have hsorted := pairwise_bytesLe (es.map (·.description))
  have : Std.Antisymm fun s t => bytesLe s t = true := ⟨fun _ _ => bytesLe_antisymm⟩
  rw [hsorted.destutter_eq_dedup]
  apply (rising_descriptions es).unique
  · exact .of_pairwise (hsorted.sublist (List.dedup_sublist _)) (List.nodup_dedup _)
  · intro d
    rw [mem_descriptions, mem_described, List.mem_dedup, List.mem_mergeSort]

theorem descriptions_congr (h : described es = described es') : descriptions es = descriptions es' := by
  apply (rising_descriptions es).unique (rising_descriptions es')
  intro d
  rw [mem_descriptions, mem_descriptions, h]

/-- Two failures whose expectations have the same set of descriptions, in whatever order, number and
kind, have the same message. It joins the descriptions sorted and cleared of neighbours that are the
same: these rise in the order of their bytes, and each description of the set is among them just once. -/
theorem message_canonical (h : described es = described es') (o o' : ℕ) (found : Option Char) :
    ∃ (ds : List String) (said : String),
      ds = ((es.map (·.description)).mergeSort bytesLe).destutter (· ≠ ·) ∧
      ds.Pairwise (fun d d' => utf8 d < utf8 d') ∧ (∀ d ∈ described es, ds.count d = 1) ∧
      (∀ d ∈ ds, d ∈ described es) ∧ Joined ds said ∧
      message ⟨o, es, found⟩ = "Expected " ++ said ++ " but " ++ (match found with
        | some c => quoted (String.singleton c)
        | none => "end of input") ++ " found." ∧
      message ⟨o', es', found⟩ = message ⟨o, es, found⟩ := by
  have hrising := rising_descriptions es
  refine ⟨descriptions es, phrase (descriptions es), descriptions_eq_destutter es, hrising, ?_, ?_,
    joined_phrase _, rfl, ?_⟩
  · intro d hd
    exact List.count_eq_one_of_mem hrising.nodup (mem_descriptions.mpr hd)
  · intro d hd
    exact mem_descriptions.mp hd
  · unfold message
    rw [descriptions_congr h]

/-- Three descriptions, two of them recorded twice, once as a name instead of a literal. -/
theorem message_canonical_digit :
    let es : List Expectation :=
      [.ofLiteral "b", .ofClass "[0-9]", .other "\"b\"", .anyChar, .ofClass "[0-9]"]
    let es' : List Expectation := [.anyChar, .ofLiteral "b", .ofClass "[0-9]"]
    described es = described es' ∧
      message ⟨2, es, some 'x'⟩ = "Expected \"b\", [0-9], or any character but \"x\" found." ∧
      message ⟨7, es', some 'x'⟩ = message ⟨2, es, some 'x'⟩ := by
  intro es es'
  have hall : ∀ d ∈ es.map (·.description), d ∈ es'.map (·.description) := by decide +kernel
  have hall' : ∀ d ∈ es'.map (·.description), d ∈ es.map (·.description) := by decide +kernel
  have hset : described es = described es' := by
    ext d
    rw [mem_described, mem_described]
    exact ⟨hall d, hall' d⟩
  have hlisted : descriptions es = ["\"b\"", "[0-9]", "any character"] := by
    apply (rising_descriptions es).unique
    · exact List.isChain_iff_pairwise.mp (by decide +kernel)
    · intro d
      have hperm : (es'.map (·.description)).Perm ["\"b\"", "[0-9]", "any character"] := by
        decide +kernel
      rw [mem_descriptions, hset, mem_described, hperm.mem_iff]
  obtain ⟨ds, said, -, -, -, -, -, -, hsame⟩ := message_canonical hset 2 7 (some 'x')
  refine ⟨hset, ?_, hsame⟩
  unfold message
  rw [hlisted]
  decide +kernel

end ParseFailure
end PegMachine
