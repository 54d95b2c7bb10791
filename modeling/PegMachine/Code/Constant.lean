import PegMachine.Grammar.CharClass

/-! Constants: the data that instructions refer to by number. -/
namespace PegMachine

/-- What would have let the parser go on, with the description that messages use. -/
inductive Expectation where
  | literal (value description : String)
  | charClass (value description : String)
  | any (description : String)
  | other (description : String)
  deriving DecidableEq, Repr

namespace Expectation

/-- A literal, described by its quotation. -/
def ofLiteral (value : String) : Expectation := .literal value (Text.quoted value)

/-- A class, described as it is written. -/
def ofClass (text : String) : Expectation := .charClass text text

/-- Any character. -/
def anyChar : Expectation := .any "any character"

def description : Expectation → String
  | .literal _ d | .charClass _ d | .any d | .other d => d

end Expectation

/-- Code of the grammar's author, with the labels whose values it is given. -/
structure ActionFn where
  params : List String
  code : String
  deriving DecidableEq, Repr

/-- A constant. -/
inductive Constant where
  | failed
  | undefined
  | null
  | emptyArray
  | string (s : String)
  | charClass (k : CharClass)
  | expectation (e : Expectation)
  | function (f : ActionFn)
  | bound (b : Option UInt32)
  deriving DecidableEq, Repr

end PegMachine
