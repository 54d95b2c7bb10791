/-! Tables of closed ranges of code points. -/
namespace PegMachine.Text

/-- Closed ranges of code points, first and last. -/
abbrev Ranges := List (Nat × Nat)

/-- Whether some range of the table holds the character. -/
def Ranges.has (t : Ranges) (c : Char) : Bool :=
  t.any fun r => r.1 ≤ c.toNat && c.toNat ≤ r.2

end PegMachine.Text
