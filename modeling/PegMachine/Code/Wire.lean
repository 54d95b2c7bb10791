import PegMachine.Code.Program
import PegMachine.Text.Utf8

/-! Programs as bytes: numbers in groups of seven bits, least group first; texts and lists behind
their length; alternatives behind their number. -/
namespace PegMachine

/-- Why bytes are no program. -/
inductive WireError where
  /-- The bytes end too early. -/
  | ended
  /-- A number with too many groups, or too large. -/
  | number
  | bool
  | char
  | utf8
  /-- Neither the mark of a value nor that of its absence. -/
  | option
  /-- The number of no alternative. -/
  | variant
  deriving DecidableEq, Repr

/-- The error in words. -/
def WireError.message : WireError → String
  | .ended => "Hit the end of buffer, expected more data"
  | .number => "Found a varint that didn't terminate. Is the usize too big for this platform?"
  | .bool => "Found a bool that wasn't 0 or 1"
  | .char => "Found an invalid unicode char"
  | .utf8 => "Tried to parse invalid utf-8"
  | .option => "Found an Option discriminant that wasn't 0 or 1"
  | .variant => "Serde Deserialization Error"

/-- Reads from the front of the bytes. -/
abbrev Reader := StateT (List UInt8) (Except WireError)

/-- How values of a type are written and read. -/
structure Codec (α : Type) where
  put : α → List UInt8
  get : Reader α

namespace Wire

def byte : Reader UInt8 := fun bs =>
  match bs with
  | [] => .error .ended
  | b :: bs => .ok (b, bs)

/-- The next `n` bytes. -/
def bytes (n : Nat) : Reader (List UInt8) := fun bs =>
  if n ≤ bs.length then .ok (bs.take n, bs.drop n) else .error .ended

/-- The groups of a number. All but the last have the high bit. -/
def putNat (n : Nat) : List UInt8 :=
  if n < 128 then [UInt8.ofNat n] else UInt8.ofNat (n % 128 + 128) :: putNat (n / 128)

/-- Reads a number of at most `groups` groups, the last of which may not be above `top` if it is the
last one allowed. -/
def getNat (top : Nat) : (groups : Nat) → Reader Nat
  | 0 => throw .number
  | k + 1 => do
    let b ← byte
    if b.toNat < 128 then
      if k = 0 ∧ top < b.toNat then throw .number else pure b.toNat
    else do
      let n ← getNat top k
      pure (b.toNat - 128 + 128 * n)

/-- Words have 32 bits, four of them in the fifth group. -/
def word : Codec UInt32 where
  put w := putNat w.toNat
  get := do
    let n ← getNat 15 5
    pure (UInt32.ofNat n)

/-- Lengths have 64 bits, one of them in the tenth group. -/
def length : Codec Nat where
  put := putNat
  get := getNat 1 10

/-- The number of an alternative. -/
def tag : Reader Nat := do
  let w ← word.get
  pure w.toNat

def bool : Codec Bool where
  put b := [if b then 1 else 0]
  get := do
    let b ← byte
    if b = 0 then pure false else if b = 1 then pure true else throw .bool

def string : Codec String where
  put s := length.put (Text.utf8 s).length ++ Text.utf8 s
  get := do
    let n ← length.get
    let bs ← bytes n
    match Text.ofUtf8? bs with
    | some s => pure s
    | none => throw .utf8

/-- A character is written as a text of its own. The first one of a short text is read. -/
def char : Codec Char where
  put c := string.put (String.singleton c)
  get := do
    let n ← length.get
    if 4 < n then throw .char
    let bs ← bytes n
    match (Text.ofUtf8? bs).map String.toList with
    | some (c :: _) => pure c
    | _ => throw .char

/-- Reads `n` values. -/
def getMany {α : Type} (get : Reader α) : (n : Nat) → Reader (List α)
  | 0 => pure []
  | n + 1 => do
    let a ← get
    let as ← getMany get n
    pure (a :: as)

def list {α : Type} (c : Codec α) : Codec (List α) where
  put as := length.put as.length ++ as.flatMap c.put
  get := do
    let n ← length.get
    getMany c.get n

def option {α : Type} (c : Codec α) : Codec (Option α) where
  put
    | none => [0]
    | some a => 1 :: c.put a
  get := do
    let b ← byte
    if b = 0 then pure none
    else if b = 1 then do
      let a ← c.get
      pure (some a)
    else throw .option

def classPart : Codec ClassPart where
  put
    | .char c => putNat 0 ++ char.put c
    | .range lo hi => putNat 1 ++ char.put lo ++ char.put hi
  get := do
    match ← tag with
    | 0 => do
      let c ← char.get
      pure (.char c)
    | 1 => do
      let lo ← char.get
      let hi ← char.get
      pure (.range lo hi)
    | _ => throw .variant

def charClass : Codec CharClass where
  put k := (list classPart).put k.parts ++ bool.put k.inverted ++ bool.put k.ignoreCase
  get := do
    let parts ← (list classPart).get
    let inverted ← bool.get
    let ignoreCase ← bool.get
    pure ⟨parts, inverted, ignoreCase⟩

def expectation : Codec Expectation where
  put
    | .literal v d => putNat 0 ++ string.put v ++ string.put d
    | .charClass v d => putNat 1 ++ string.put v ++ string.put d
    | .any d => putNat 2 ++ string.put d
    | .other d => putNat 3 ++ string.put d
  get := do
    match ← tag with
    | 0 => do
      let v ← string.get
      let d ← string.get
      pure (.literal v d)
    | 1 => do
      let v ← string.get
      let d ← string.get
      pure (.charClass v d)
    | 2 => do
      let d ← string.get
      pure (.any d)
    | 3 => do
      let d ← string.get
      pure (.other d)
    | _ => throw .variant

def actionFn : Codec ActionFn where
  put f := (list string).put f.params ++ string.put f.code
  get := do
    let params ← (list string).get
    let code ← string.get
    pure ⟨params, code⟩

def constant : Codec Constant where
  put
    | .failed => putNat 0
    | .undefined => putNat 1
    | .null => putNat 2
    | .emptyArray => putNat 3
    | .string s => putNat 4 ++ string.put s
    | .charClass k => putNat 5 ++ charClass.put k
    | .expectation e => putNat 6 ++ expectation.put e
    | .function f => putNat 7 ++ actionFn.put f
    | .bound b => putNat 8 ++ (option word).put b
  get := do
    match ← tag with
    | 0 => pure .failed
    | 1 => pure .undefined
    | 2 => pure .null
    | 3 => pure .emptyArray
    | 4 => do
      let s ← string.get
      pure (.string s)
    | 5 => do
      let k ← charClass.get
      pure (.charClass k)
    | 6 => do
      let e ← expectation.get
      pure (.expectation e)
    | 7 => do
      let f ← actionFn.get
      pure (.function f)
    | 8 => do
      let b ← (option word).get
      pure (.bound b)
    | _ => throw .variant

def ruleCode : Codec RuleCode where
  put r := string.put r.name ++ (list word).put r.code
  get := do
    let name ← string.get
    let code ← (list word).get
    pure ⟨name, code⟩

def program : Codec Program where
  put p := (list ruleCode).put p.rules ++ (list constant).put p.consts
  get := do
    let rules ← (list ruleCode).get
    let consts ← (list constant).get
    pure ⟨rules, consts⟩

end Wire

namespace Program

/-- The bytes of a program. -/
def toBytes (p : Program) : List UInt8 := Wire.program.put p

/-- The program at the front of the bytes. -/
def ofBytes (bs : List UInt8) : Except WireError Program := do
  let (p, _) ← Wire.program.get bs
  .ok p

end Program

/-- The words for bytes that were refused with the given words. -/
def WireError.refused (words : String) : String := "cannot decode compiled grammar: " ++ words

end PegMachine
