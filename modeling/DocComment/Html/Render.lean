import DocComment.Html.Escape
import DocComment.Node.Basic

/-!
# Trees as HTML

Every payload and every link target is escaped, so no text of a comment can turn into markup. Leaves
do not show children, and other nodes do not show a payload.
-/

namespace DocComment.Html

def enclose (opening : String) (t : Text) (closing : String) : Text :=
  opening.toList ++ t ++ closing.toList

mutual

def render : Node → Text
  | ⟨kind, _, data, href, children⟩ =>
    match kind with
    | .root => renderAll children
    | .paragraph => enclose "<p>" (renderAll children) "</p>\n"
    | .preformatted => enclose "<pre><code>" (escape data) "</code></pre>\n"
    | .text => escape data
    | .emphasis => enclose "<em>" (renderAll children) "</em>"
    | .strong => enclose "<strong>" (renderAll children) "</strong>"
    | .code => enclose "<code>" (escape data) "</code>"
    | .anchor => enclose "<a href=\"" (escape href) "\">" ++ enclose "" (escape data) "</a>"

def renderAll : List Node → Text
  | [] => []
  | n :: ns => render n ++ renderAll ns

end

end DocComment.Html
