import DocComment.Text.Basic

/-! # JSON values and their indented form

Every item and every field stands on a line of its own, two spaces deeper than the bracket that
opens it. A text is written with as few escapes as the format allows. -/

namespace DocComment

/-- A JSON value, as far as listings need it. -/
inductive Json where
  | text (t : Text)
  | number (n : Nat)
  | list (items : List Json)
  | record (fields : List (Text × Json))

namespace Json

/-- A character inside a JSON text. Only the quote, the backslash and the control characters below
the space are escaped. -/
def escapeChar (c : Char) : Text :=
  match c with
  | '"' => "\\\"".toList
  | '\\' => "\\\\".toList
  | '\x08' => "\\b".toList
  | '\t' => "\\t".toList
  | '\n' => "\\n".toList
  | '\x0c' => "\\f".toList
  | '\r' => "\\r".toList
  | c =>
    if c.toNat < 0x20 then
      "\\u00".toList ++ [Nat.digitChar (c.toNat / 16), Nat.digitChar (c.toNat % 16)]
    else [c]

def quote (t : Text) : Text := '"' :: t.flatMap escapeChar ++ ['"']

/-- A new line, indented for the given depth. -/
def newLine (depth : Nat) : Text := '\n' :: List.replicate (2 * depth) ' '

section
variable (quote : Text → Text)

mutual

/-- The indented form of a value whose opening bracket stands at `depth`, with its texts quoted by
`quote`. -/
def prettyWith (depth : Nat) : Json → Text
  | text t => quote t
  | number n => Text.ofNat n
  | list [] => "[]".toList
  | list (v :: vs) => '[' :: prettyItems (depth + 1) (v :: vs) ++ newLine depth ++ [']']
  | record [] => "\x7b\x7d".toList
  | record (f :: fs) => '\x7b' :: prettyFields (depth + 1) (f :: fs) ++ newLine depth ++ ['\x7d']

def prettyItems (depth : Nat) : List Json → Text
  | [] => []
  | [v] => newLine depth ++ prettyWith depth v
  | v :: vs => newLine depth ++ prettyWith depth v ++ ',' :: prettyItems depth vs

def prettyFields (depth : Nat) : List (Text × Json) → Text
  | [] => []
  | [(name, v)] => newLine depth ++ quote name ++ ": ".toList ++ prettyWith depth v
  | (name, v) :: fs =>
    newLine depth ++ quote name ++ ": ".toList ++ prettyWith depth v ++ ',' :: prettyFields depth fs

end

end

def pretty (depth : Nat) (v : Json) : Text := prettyWith quote depth v

end Json

end DocComment
