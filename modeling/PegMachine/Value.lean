import PegMachine.Text.Escape

/-! Values on the machine's stack. -/
namespace PegMachine

/-- A value. -/
inductive Value where
  /-- The mark of an expression that did not match. -/
  | failed
  /-- The value of a predicate that holds. -/
  | undefined
  /-- The value of an optional expression that did not match. -/
  | null
  /-- A place in the input. -/
  | pos (p : Nat)
  | string (s : String)
  | array (items : List Value)
  /-- A bound on a repetition; `none` bounds nothing. -/
  | bound (b : Option UInt32)
  | bool (b : Bool)
  | integer (n : Int64)

/-- The kinds of values. -/
inductive Kind where
  | failed | undefined | null | pos | string | array | bound | bool | integer
  deriving DecidableEq, Repr

/-- The kind in words. -/
def Kind.name : Kind → String
  | .failed => "failed"
  | .undefined => "undefined"
  | .null => "null"
  | .pos => "position"
  | .string => "string"
  | .array => "array"
  | .bound => "bound"
  | .bool => "bool"
  | .integer => "integer"

namespace Value

def kind : Value → Kind
  | .failed => .failed
  | .undefined => .undefined
  | .null => .null
  | .pos _ => .pos
  | .string _ => .string
  | .array _ => .array
  | .bound _ => .bound
  | .bool _ => .bool
  | .integer _ => .integer

def isFailed : Value → Bool
  | .failed => true
  | _ => false

/-- Whether the value counts as true when code answers with it. -/
def isTruthy : Value → Bool
  | .failed | .undefined | .null => false
  | .bool b => b
  | .integer n => n != 0
  | .string s => s != ""
  | .pos _ | .array _ | .bound _ => true

mutual

/-- The value in words: strings are quoted, places follow an `@`. -/
def display : Value → String
  | .failed => "<failed>"
  | .undefined => "undefined"
  | .null => "null"
  | .pos p => "@" ++ toString p
  | .string s => Text.quoted s
  | .array vs => "[" ++ displayItems vs ++ "]"
  | .bound (some n) => toString n.toNat
  | .bound none => "unbounded"
  | .bool true => "true"
  | .bool false => "false"
  | .integer n => toString n.toInt

/-- The items of an array, separated by commas. -/
def displayItems : List Value → String
  | [] => ""
  | [v] => v.display
  | v :: w :: vs => v.display ++ ", " ++ displayItems (w :: vs)

end

mutual

/-- Whether two values are the same. -/
def same : Value → Value → Bool
  | .failed, .failed | .undefined, .undefined | .null, .null => true
  | .pos p, .pos q => p == q
  | .string s, .string t => s == t
  | .array vs, .array ws => sameItems vs ws
  | .bound b, .bound c => b == c
  | .bool b, .bool c => b == c
  | .integer m, .integer n => m == n
  | _, _ => false

/-- Whether two lists hold the same values in the same order. -/
def sameItems : List Value → List Value → Bool
  | [], [] => true
  | v :: vs, w :: ws => same v w && sameItems vs ws
  | _, _ => false

end

mutual

theorem same_iff (v w : Value) : same v w = true ↔ v = w := by
  cases v with
  | array vs => cases w <;> simp [same, sameItems_iff vs]
  | _ => cases w <;> simp [same]

theorem sameItems_iff (vs ws : List Value) : sameItems vs ws = true ↔ vs = ws := by
  cases vs with
  | nil => cases ws <;> simp [sameItems]
  | cons v vs => cases ws <;> simp [sameItems, same_iff v, sameItems_iff vs]

end

instance : DecidableEq Value := fun v w => decidable_of_iff _ (same_iff v w)

end Value
end PegMachine
