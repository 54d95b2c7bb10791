import PegMachine.Text.Escape
import PegMachine.Text.Lower
import PegMachine.Text.Upper

/-! Character classes: which characters they accept and how they are written. -/
namespace PegMachine

/-- A member of a character class: one character, or all from `lo` to `hi`. -/
inductive ClassPart where
  | char (c : Char)
  | range (lo hi : Char)
  deriving DecidableEq, Repr

/-- A set of characters, or its complement, seen with or without case. -/
structure CharClass where
  parts : List ClassPart
  inverted : Bool
  ignoreCase : Bool
  deriving DecidableEq, Repr

/-- Whether the character is the part, or lies in it. -/
def ClassPart.has : ClassPart → Char → Bool
  | .char p, c => p == c
  | .range lo hi, c => decide (lo ≤ c) && decide (c ≤ hi)

/-- The part as it stands between brackets. -/
def ClassPart.written : ClassPart → List Char
  | .char c => spell c
  | .range lo hi => spell lo ++ '-' :: spell hi
where
  /-- The four characters with a meaning of their own in a class follow a backslash. -/
  spell (c : Char) : List Char :=
    if c = '\\' ∨ c = ']' ∨ c = '^' ∨ c = '-' then ['\\', c] else Text.asciiEscape c

namespace CharClass

/-- Whether some part has the character. -/
def contains (k : CharClass) (c : Char) : Bool := k.parts.any (·.has c)

/-- The characters looked up for `c`: without case, also those of its lower and its upper case. -/
def candidates (k : CharClass) (c : Char) : List Char :=
  if k.ignoreCase then Text.lowerChar c ++ Text.upperChar c ++ [c] else [c]

/-- Whether the class accepts the character. A class with no parts accepts none, or all when
inverted. -/
def accepts (k : CharClass) (c : Char) : Bool := (k.candidates c).any k.contains != k.inverted

/-- The class in brackets, `[^a-z_]i`. -/
def render (k : CharClass) : String :=
  String.ofList <| '[' :: (if k.inverted then ['^'] else []) ++ k.parts.flatMap ClassPart.written
    ++ ']' :: if k.ignoreCase then ['i'] else []

end CharClass
end PegMachine
