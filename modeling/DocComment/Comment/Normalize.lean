import DocComment.Comment.Basic

/-!
# The normal text of a comment

A documentation comment is the list of its raw comments. `Comment.normalize` joins their bodies to
one text whose lines have no white space at the end and whose paragraphs are one empty line apart.
The lines are joined in a single pass: `joinLines` decides how far two lines stand apart when it
meets the second.
-/

namespace DocComment.Comment

/-- The line feeds in front of a line: none before the first line, and one more than usual after
an empty line. -/
def separator (started blank : Bool) : Text :=
  if started then if blank then ['\n', '\n'] else ['\n'] else []

/-- Joins lines, their ends trimmed, and leaves out empty ones. `started` says that a line has been
written, and `blank` that empty lines have been left out since. -/
def joinLines (started blank : Bool) : List Text → Text
  | [] => []
  | line :: rest =>
    let line := Text.trimEnd line
    if line.isEmpty then joinLines started started rest
    else separator started blank ++ line ++ joinLines true false rest

/-- The normal text of a list of raw comments. -/
def normalize (comments : List Text) : Text :=
  joinLines false false (comments.flatMap fun raw => Text.lines (body raw))

end DocComment.Comment
