import PegMachine.Text.Extending
import PegMachine.Text.Printable

/-! Escapes: text between quotation marks, and single characters spelled in ASCII. -/
namespace PegMachine.Text

/-- The code point in hexadecimal, between braces after `\u`. -/
def hexEscape (c : Char) : List Char :=
  ['\\', 'u', '\x7b'] ++ Nat.toDigits 16 c.toNat ++ ['\x7d']

/-- A character inside quotation marks. One that would join the mark before it, or has no visible
form, is written by its code point. -/
def quoteChar : Char → List Char
  | '\x00' => ['\\', '0']
  | '\t' => ['\\', 't']
  | '\r' => ['\\', 'r']
  | '\n' => ['\\', 'n']
  | '\x22' => ['\\', '\x22']
  | '\\' => ['\\', '\\']
  | c => if !isExtending c && isPrintable c then [c] else hexEscape c

/-- The text between quotation marks. -/
def quoted (s : String) : String :=
  String.ofList ('\x22' :: s.toList.flatMap quoteChar ++ ['\x22'])

/-- A character spelled in visible ASCII. -/
def asciiEscape : Char → List Char
  | '\t' => ['\\', 't']
  | '\r' => ['\\', 'r']
  | '\n' => ['\\', 'n']
  | '\x27' => ['\\', '\x27']
  | '\x22' => ['\\', '\x22']
  | '\\' => ['\\', '\\']
  | c => if 0x20 ≤ c.toNat && c.toNat ≤ 0x7E then [c] else hexEscape c

end PegMachine.Text
