import DocComment.Text.Indentation

/-!
# Raw comments

A raw comment is the text of one comment with its delimiters: a line comment begins with `//`, and
a block comment stands between `/*` and `*/`. `Comment.body` is what the author wrote inside.
-/

namespace DocComment.Comment

def lineMarker : Text := "//".toList

def blockOpen : Text := "/*".toList

def blockClose : Text := "*/".toList

/-- The text without one space at its beginning. -/
def dropSpace (t : Text) : Text := Text.dropStart [' '] t

/-- The text of a raw comment without its delimiters and without the space that follows the opening
one. The lines of a block comment lose their common indentation as well; a text that is no comment
loses one space at most. -/
def body (raw : Text) : Text :=
  match lineMarker.isPrefixOf? raw with
  | some rest => dropSpace rest
  | none =>
    match blockOpen.isPrefixOf? raw with
    | some rest => dropSpace (Text.reindent (dropSpace (Text.dropEnd blockClose rest)))
    | none => dropSpace raw

end DocComment.Comment
