/-! Fractions of a hundred with one decimal. The quotient is a binary double; its exact value is what
is rounded. -/
namespace PegMachine.Text

/-- The quotient rounded to a natural number, a half going to the even neighbour. -/
def roundDiv (a b : Nat) : Nat :=
  let q := a / b
  if 2 * (a % b) < b then q
  else if b < 2 * (a % b) then q + 1
  else q + q % 2

/-- Ten times a finite double that is not negative, rounded. A double is a significand times a power
of two whose exponent is biased by 1075, and by one less when the significand has its leading bit
missing. -/
def tenths (x : Float) : Nat :=
  let bits := x.toBits.toNat
  let e := bits >>> 52
  let m := bits - e <<< 52 + (if e = 0 then 0 else 1 <<< 52)
  roundDiv ((10 * m) <<< (max e 1 - 1075)) (1 <<< (1075 - max e 1))

/-- The share of `part` in `whole`, in percent with one decimal. Nothing has a share of 0.0. -/
def percent (part whole : Nat) : String :=
  let t := tenths (Float.ofNat part / Float.ofNat (max whole 1) * 100)
  toString (t / 10) ++ "." ++ toString (t % 10)

end PegMachine.Text
