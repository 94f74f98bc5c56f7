import DocComment.Json
import DocComment.Node.Basic
import DocComment.Text.Quoted

/-! # Listings of trees

`Listing.tree` numbers the blocks of a tree and shows what lies below each of them, every level two
spaces deeper. `Json.ofNode` holds a tree as a JSON value. Both leave out what is empty. -/

namespace DocComment

namespace Listing

/-- The kind and the offset of a node. -/
def heading (n : Node) : Text := n.kind.name ++ " @".toList ++ Text.ofNat n.pos.toNat ++ ['\n']

def margin (depth : Nat) : Text := List.replicate (2 * depth) ' '

mutual

/-- What a node holds, `depth` levels down. -/
def content (depth : Nat) : Node → Text
  | ⟨_, _, data, href, children⟩ =>
    (if data.isEmpty then []
      else margin depth ++ "Content: ".toList ++ Text.quote data ++ ['\n']) ++
      (if href.isEmpty then [] else margin depth ++ "Href: ".toList ++ href ++ ['\n']) ++
      contents depth children

def contents (depth : Nat) : List Node → Text
  | [] => []
  | n :: ns => margin depth ++ heading n ++ content (depth + 1) n ++ contents depth ns

end

/-- The blocks of a tree, numbered from `i`, with an empty line before each. -/
def blocks (i : Nat) : List Node → Text
  | [] => []
  | n :: ns =>
    "\n[".toList ++ Text.ofNat i ++ "] ".toList ++ heading n ++ content 1 n ++ blocks (i + 1) ns

def tree (root : Node) : Text :=
  "Blocks: ".toList ++ Text.ofNat root.children.length ++ '\n' :: blocks 1 root.children

end Listing

namespace Json

mutual

def ofNode : Node → Json
  | ⟨kind, pos, data, href, children⟩ =>
    .record ([("type".toList, .text kind.name), ("pos".toList, .number pos.toNat)] ++
      (if data.isEmpty then [] else [("data".toList, .text data)]) ++
      (if href.isEmpty then [] else [("href".toList, .text href)]) ++
      (if children.isEmpty then [] else [("children".toList, .list (ofNodes children))]))

def ofNodes : List Node → List Json
  | [] => []
  | n :: ns => ofNode n :: ofNodes ns

end

end Json

end DocComment
