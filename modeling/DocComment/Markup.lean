import DocComment.Text.Blank

/-!
# Where lines, indented runs and code spans end

Lines end with a line feed, a carriage return, or both in this order. Each function gives a number
of characters at the beginning of a text.
-/

namespace DocComment.Markup

/-- Whether a text begins with a character of a class. -/
def startsWith (p : Char → Bool) (t : Text) : Bool := t.head?.any p

/-- The length of the line break at the beginning of a text. -/
def breakLength : Text → Nat
  | '\r' :: '\n' :: _ => 2
  | _ => 1

/-- The length of a run of indented lines, its last line break included. Empty lines belong to the
run, so it ends in front of a line with other text. -/
def indentedLength : Text → Nat
  | [] => 0
  | '\r' :: '\n' :: t => if startsWith isBlank t then indentedLength t + 2 else 2
  | c :: t =>
    if isNewline c && !startsWith isBlank t then 1 else indentedLength t + 1

/-- The length of a code span from behind its opening backtick through its closing one. No line
inside a code span is empty or indented. -/
def codeLength? : Text → Option Nat
  | [] => none
  | '`' :: _ => some 1
  | '\r' :: '\n' :: t => if startsWith isBlank t then none else (codeLength? t).map (· + 2)
  | c :: t =>
    if isNewline c && startsWith isBlank t then none else (codeLength? t).map (· + 1)

end DocComment.Markup
