import PegMachine.Text.Lower

/-! The input: its characters by their places, counted from 0. -/
namespace PegMachine

/-- The characters of the input. -/
abbrev Input := Array Char

namespace Input

def ofString (s : String) : Input := s.toList.toArray

/-- The characters from place `a` to place `b`, as far as there are any. -/
def text (input : Input) (a b : Nat) : String := String.ofList (input.extract a b).toList

/-- The characters from place `a` to place `b`, or none if there is no such stretch. -/
def slice (input : Input) (a b : Nat) : String :=
  if a ≤ b ∧ b ≤ input.size then input.text a b else ""

/-- Whether the text stands at place `p`. -/
def hasAt (input : Input) (p : Nat) (s : String) : Bool :=
  decide (p + s.length ≤ input.size) && (input.extract p (p + s.length)).toList == s.toList

/-- Whether the input from place `p` on, lowered character by character, begins with the text. A
character has at least one in lower case, so no more of them are asked than the text has. -/
def hasFoldedAt (input : Input) (p : Nat) (s : String) : Bool :=
  s.toList.isPrefixOf ((input.extract p (p + s.length)).toList.flatMap Text.lowerChar)

end Input
end PegMachine
