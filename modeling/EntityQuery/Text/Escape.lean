/-! # Escapes in double quotes

JSON, settings documents and variables write some characters of a quoted text as a backslash and a
letter, or as a backslash and the hexadecimal digits of a number. -/

namespace EntityQuery.Text

/-- The value of a hexadecimal digit. -/
def hexDigit? (c : Char) : Option Nat :=
  if c.isDigit then some (c.toNat - '0'.toNat)
  else if 'a' ≤ c ∧ c ≤ 'f' then some (c.toNat - 'a'.toNat + 10)
  else if 'A' ≤ c ∧ c ≤ 'F' then some (c.toNat - 'A'.toNat + 10)
  else none

/-- The number written in hexadecimal digits. -/
def hexValue? (ds : List Char) : Option Nat :=
  (ds.mapM hexDigit?).map (·.foldl (fun n d => n * 16 + d) 0)

/-- The character with the code point given in hexadecimal digits. -/
def codePoint? (ds : List Char) : Option Char :=
  (hexValue? ds).bind fun n => if n.isValidChar then some (Char.ofNat n) else none

/-- The character that a letter after a backslash stands for. -/
def shortEscape? (c : Char) : Option Char :=
  match c with
  | '"' => some '"'
  | '\\' => some '\\'
  | 'b' => some '\x08'
  | 'f' => some '\x0c'
  | 'n' => some '\n'
  | 'r' => some '\r'
  | 't' => some '\t'
  | _ => none

end EntityQuery.Text
