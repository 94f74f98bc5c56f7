import DocComment.Comment.Normalize
import DocComment.Html.Render
import DocComment.Node.Build

/-!
# From raw comments to text, tree and HTML
-/

namespace DocComment.Comment

def toTree (comments : List Text) : Node := Node.ofText (normalize comments)

/-- The HTML of a list of raw comments; empty if they have no text. -/
def toHtml (comments : List Text) : Text :=
  if (normalize comments).isEmpty then [] else Html.render (toTree comments)

end DocComment.Comment
