import Workers.Text.Shown
/-! # Quoted text

A string between double quotes.  The quote, the backslash, the line ends, the tabulator and the
null character have escapes of their own; any other character that would not show is written as
its code point in hexadecimal.
-/
namespace Workers.Text

/-- The code point in lowercase hexadecimal, in the form `\u{…}`. -/
def escapePoint (c : Char) : List Char :=
  ['\\','u','{'] ++ Nat.toDigits 16 c.toNat ++ ['}']

def escape (c : Char) : List Char :=
  match c with
  | '\x00' => ['\\','0']
  | '\t' => ['\\','t']
  | '\r' => ['\\','r']
  | '\n' => ['\\','n']
  | '"' => ['\\','"']
  | '\\' => ['\\','\\']
  | c => if isShown c then [c] else escapePoint c

def quoted (s : String) : String :=
  String.ofList ('"' :: s.toList.flatMap escape ++ ['"'])

end Workers.Text
