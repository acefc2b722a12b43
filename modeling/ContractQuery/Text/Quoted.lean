import ContractQuery.Text.Printable
import ContractQuery.Text.Extending

/-!
# Quoted Text

Text in double quotes in which everything can be seen. The quote, the backslash, NUL, tab,
line feed and carriage return have short escapes. Characters that are not printable, and
those that would attach to the character before them, are written by their code point.
-/

namespace ContractQuery.Text

/-- A character by its code point, in hexadecimal. -/
def byCode (c : Char) : List Char :=
  ['\\', 'u', '\x7b'] ++ Nat.toDigits 16 c.toNat ++ ['\x7d']

/-- A character inside quoted text. -/
def visible (c : Char) : List Char :=
  match c with
  | '\x00' => ['\\', '0']
  | '\t' => ['\\', 't']
  | '\n' => ['\\', 'n']
  | '\r' => ['\\', 'r']
  | '"' => ['\\', '"']
  | '\\' => ['\\', '\\']
  | c => if isExtending c || !isPrintable c then byCode c else [c]

/-- Text in quotes. -/
def quoted (s : String) : String :=
  String.ofList ('"' :: s.toList.flatMap visible ++ ['"'])

end ContractQuery.Text
