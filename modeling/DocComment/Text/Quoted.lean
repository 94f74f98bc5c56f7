import DocComment.Text.Printable

/-!
# Quoted texts

A quoted text stands between double quotes. Each character is written as itself or as an escape
of its own: the quote, the backslash and four control characters after a backslash, and what is
not printable by its code point in hexadecimal.
-/

namespace DocComment.Text

/-- A character as it stands in a quoted text. -/
def quoteChar (c : Char) : Text :=
  match c with
  | '\x00' => "\\0".toList
  | '\t' => "\\t".toList
  | '\r' => "\\r".toList
  | '\n' => "\\n".toList
  | '"' => "\\\"".toList
  | '\\' => "\\\\".toList
  | c => if isPrintable c then [c] else "\\u\x7b".toList ++ Nat.toDigits 16 c.toNat ++ "\x7d".toList

/-- The text between double quotes, with escapes. -/
def quote (t : Text) : Text := '"' :: t.flatMap quoteChar ++ ['"']

end DocComment.Text
