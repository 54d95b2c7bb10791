/-! Runs of code points whose case mapping moves them by one common amount. -/
namespace PegMachine.Text

/-- Every `stride`-th code point from `first` to `last` maps to the one `shift` away. -/
structure CaseSpan where
  first : Nat
  last : Nat
  stride : Nat
  shift : Int

/-- Whether the span maps the character. -/
def CaseSpan.has (s : CaseSpan) (c : Char) : Bool :=
  s.first ≤ c.toNat && c.toNat ≤ s.last && (c.toNat - s.first) % s.stride == 0

/-- The image under the first span that maps the character, or the character itself. -/
def CaseSpan.apply (t : List CaseSpan) (c : Char) : Char :=
  match t.find? (·.has c) with
  | some s => Char.ofNat (c.toNat + s.shift).toNat
  | none => c

end PegMachine.Text
