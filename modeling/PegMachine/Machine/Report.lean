import PegMachine.Code.Constant
import PegMachine.Text.Utf8

/-! The furthest failure: the furthest place at which something was expected, and what was. -/
namespace PegMachine

/-- The furthest place and what was expected there, in the order of recording. -/
structure Report where
  pos : Nat := 0
  expected : List Expectation := []
  deriving DecidableEq, Repr

/-- Records an expectation at place `p`: one before the furthest place is dropped, and one beyond it
starts anew. -/
def Report.record (r : Report) (p : Nat) (e : Expectation) : Report :=
  if p < r.pos then r
  else if r.pos < p then ⟨p, [e]⟩
  else ⟨r.pos, r.expected ++ [e]⟩

/-- Why an input has no parse. -/
structure ParseFailure where
  /-- The furthest place. -/
  offset : Nat
  /-- What was expected there, in the order of recording. -/
  expected : List Expectation
  /-- The character there, if the input goes on. -/
  found : Option Char
  deriving DecidableEq, Repr

namespace ParseFailure

/-- Three or more descriptions, the last one after an "or". -/
def series : List String → String
  | [] => ""
  | [d] => "or " ++ d
  | d :: ds => d ++ ", " ++ series ds

/-- Descriptions as one phrase. -/
def phrase : List String → String
  | [] => "nothing"
  | [d] => d
  | [d, d'] => d ++ " or " ++ d'
  | ds => series ds

/-- The descriptions, each once, in the order of their bytes. -/
def descriptions (es : List Expectation) : List String :=
  (es.map (·.description)).eraseDups.mergeSort Text.bytesLe

/-- The failure in words. -/
def message (f : ParseFailure) : String :=
  "Expected " ++ phrase (descriptions f.expected) ++ " but "
    ++ (match f.found with
      | some c => Text.quoted (String.singleton c)
      | none => "end of input")
    ++ " found."

end ParseFailure
end PegMachine
