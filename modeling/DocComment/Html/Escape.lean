import DocComment.Text.Basic

/-!
# Text in HTML

Five characters have a meaning in HTML. `Html.escape` copies what stands between them as it is and
writes an entity for each of them.
-/

namespace DocComment.Html

/-- Whether a character has a meaning in HTML. -/
def isSpecial (c : Char) : Bool := c == '&' || c == '<' || c == '>' || c == '"' || c == '\''

/-- The entity for a special character; other characters stand for themselves. -/
def entity : Char → Text
  | '&' => "&amp;".toList
  | '<' => "&lt;".toList
  | '>' => "&gt;".toList
  | '"' => "&quot;".toList
  | '\'' => "&#39;".toList
  | c => [c]

/-- A text as it stands in HTML, run by run. -/
def escape (t : Text) : Text :=
  let plain := t.takeWhile fun c => !isSpecial c
  match _h : t.dropWhile fun c => !isSpecial c with
  | [] => plain
  | c :: rest => plain ++ entity c ++ escape rest
termination_by t.length
decreasing_by
  have hle : (c :: rest).length ≤ t.length := _h ▸ (List.dropWhile_suffix _).length_le
  exact hle

end DocComment.Html
