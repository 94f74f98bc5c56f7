import DocComment.Text.Blank

/-!
# Lines and their common indentation

`Text.reindent` takes from every line the indentation that the indented lines share. Lines without
indentation take no part in the measurement, so the first line of a block comment, which follows
the opening delimiter, does not hold the others back.
-/

namespace DocComment.Text

/-- The lines of a text, cut at line feeds. -/
def lines (t : Text) : List Text := t.splitOn '\n'

/-- The lines joined by line feeds. -/
def unlines (ls : List Text) : Text := ['\n'].intercalate ls

/-- The number of spaces and tabs at the beginning of a line. -/
def indentation (line : Text) : Nat := (line.takeWhile isIndent).length

/-- The least indentation among the lines that are indented and not blank. -/
def commonIndentation? (ls : List Text) : Option Nat :=
  (((ls.filter fun line => !line.all isBlank).map indentation).filter (0 < ·)).min?

/-- The line without its first `n` characters, if these are blank and the line is longer. -/
def outdent (n : Nat) (line : Text) : Text :=
  if n < line.length ∧ (line.take n).all isBlank then line.drop n else line

/-- Takes the common indentation from every line that has it. -/
def reindent (t : Text) : Text :=
  match commonIndentation? (lines t) with
  | none => t
  | some n => unlines ((lines t).map (outdent n))

end DocComment.Text
