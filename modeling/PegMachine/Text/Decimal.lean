/-! Whole numbers read from decimal digits. -/
namespace PegMachine.Text

/-- The number that the digits spell, if there are only digits and at least one. -/
def natOfDigits? : List Char → Option Nat
  | [] => none
  | ds =>
    if ds.all Char.isDigit then some (ds.foldl (fun n d => 10 * n + (d.toNat - '0'.toNat)) 0)
    else none

/-- The number that the text spells: digits, and a sign before them if there is one. -/
def int? (s : String) : Option Int :=
  match s.toList with
  | '-' :: ds => (natOfDigits? ds).map fun n => -(n : Int)
  | '+' :: ds => (natOfDigits? ds).map Int.ofNat
  | ds => (natOfDigits? ds).map Int.ofNat

end PegMachine.Text
