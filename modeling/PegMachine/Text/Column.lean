/-! Text set in columns of a least width. -/
namespace PegMachine.Text

/-- The text moved to the right end of a column, `pad` before it. -/
def alignRight (width : Nat) (pad : Char) (s : String) : String :=
  String.ofList (s.toList.leftpad width pad)

/-- The text at the left end of a column, blanks after it. -/
def alignLeft (width : Nat) (s : String) : String :=
  String.ofList (s.toList.rightpad width ' ')

end PegMachine.Text
