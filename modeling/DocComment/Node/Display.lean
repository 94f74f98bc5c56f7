import DocComment.Node.Basic
import DocComment.Text.Quoted

/-!
# The compact form of a tree

One line that shows all fields of a tree: the kind and the offset of each node, then its payload, its
link target and its children as far as they are not empty.
-/

namespace DocComment.Node

section
variable (quote : Text → Text)

mutual

/-- The compact form of a tree with its texts quoted by `quote`. -/
def displayWith : Node → Text
  | ⟨kind, pos, data, href, children⟩ =>
    kind.name ++ '@' :: Text.ofNat pos.toNat ++
      (if data.isEmpty then [] else quote data) ++
      (if href.isEmpty then [] else "->".toList ++ quote href) ++
      (if children.isEmpty then [] else '[' :: displayAllWith children ++ [']'])

def displayAllWith : List Node → Text
  | [] => []
  | [n] => displayWith n
  | n :: ns => displayWith n ++ ", ".toList ++ displayAllWith ns

end

end

def display (n : Node) : Text := n.displayWith Text.quote

end DocComment.Node
