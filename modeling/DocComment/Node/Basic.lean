import DocComment.Text.Basic

/-!
# Trees of blocks and inline nodes

A tree has nodes of one shape: a kind, the offset where the node begins, a payload and a link target
that only some kinds use, and children.
-/

namespace DocComment

namespace Node

inductive Kind where
  | root
  | paragraph
  | preformatted
  | text
  | emphasis
  | strong
  | code
  | anchor
deriving DecidableEq, Repr

namespace Kind

/-- All kinds, in the order in which listings show them. -/
def all : List Kind := [root, paragraph, preformatted, text, emphasis, strong, code, anchor]

def name : Kind → Text
  | root => "Root".toList
  | paragraph => "Paragraph".toList
  | preformatted => "Preformatted".toList
  | text => "Text".toList
  | emphasis => "Emphasis".toList
  | strong => "Strong".toList
  | code => "Code".toList
  | anchor => "Anchor".toList

/-- Whether nodes of this kind are blocks. -/
def isBlock : Kind → Bool
  | paragraph | preformatted => true
  | _ => false

/-- Whether nodes of this kind have a payload and no children. -/
def isLeaf : Kind → Bool
  | preformatted | text | code | anchor => true
  | _ => false

/-- The marker that opens and closes a node of this kind. -/
def marker : Kind → Text
  | emphasis => ['*']
  | strong => ['*', '*']
  | _ => []

end Kind

end Node

structure Node where
  kind : Node.Kind
  /-- The offset of the token that the node began with. -/
  pos : UInt32
  data : Text := []
  href : Text := []
  children : List Node := []

namespace Node

def leaf (kind : Kind) (pos : UInt32) (data : Text) : Node := { kind, pos, data }

def branch (kind : Kind) (pos : UInt32) (children : List Node) : Node := { kind, pos, children }

mutual

/-- The payloads of a tree, from left to right. -/
def textContent : Node → Text
  | ⟨_, _, data, _, children⟩ => data ++ textContents children

def textContents : List Node → Text
  | [] => []
  | n :: ns => n.textContent ++ textContents ns

end

end Node

end DocComment
