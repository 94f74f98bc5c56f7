import DocComment.Node.Basic
import DocComment.Scanner.Stream
import DocComment.Text.Indentation

/-!
# Building a tree from tokens

`Node.ofTokens` reads tokens from left to right. Inside a paragraph it keeps a stack of openers:
markers that wait for their partner, each with the nodes that have come after it. A marker closes
the nearest opener of its kind. Openers above that one, and those left at the end of the paragraph,
have no partner and become plain text.

Lists of nodes under construction have the newest node first.
-/

namespace DocComment.Node

/-- A marker that waits for its partner. -/
structure Opener where
  /-- The kind of node that the partner completes. -/
  kind : Kind
  pos : UInt32
  /-- The nodes that have come since, newest first. -/
  inner : List Node := []

namespace Opener

/-- Puts the marker, as plain text, and the nodes behind it on top of `below`. -/
def flatten (o : Opener) (below : List Node) : List Node :=
  o.inner ++ leaf .text o.pos o.kind.marker :: below

end Opener

structure OpenParagraph where
  pos : UInt32
  /-- The nodes outside all openers, newest first. -/
  nodes : List Node := []
  /-- The openers, innermost first. -/
  openers : List Opener := []

namespace OpenParagraph

/-- Adds a node to the innermost opener, or to the paragraph itself. -/
def push (p : OpenParagraph) (n : Node) : OpenParagraph :=
  match p.openers with
  | [] => { p with nodes := n :: p.nodes }
  | o :: os => { p with openers := { o with inner := n :: o.inner } :: os }

/-- Adds a marker, which completes a node or opens one. -/
def mark (p : OpenParagraph) (kind : Kind) (pos : UInt32) : OpenParagraph :=
  let (above, rest) := p.openers.span (·.kind != kind)
  match rest with
  | [] => { p with openers := { kind, pos } :: p.openers }
  | o :: below =>
    let inner := above.foldr Opener.flatten o.inner
    { p with openers := below }.push (branch kind o.pos inner.reverse)

/-- The paragraph, unless it has no nodes. -/
def close? (p : OpenParagraph) : Option Node :=
  match p.openers.foldr Opener.flatten p.nodes with
  | [] => none
  | nodes => some (branch .paragraph p.pos nodes.reverse)

end OpenParagraph

/-- The name and the target of a named link. -/
def splitLink (t : Text) : Text × Text :=
  let inner := Text.dropStart ['['] t
  match Text.cut? "](".toList inner with
  | some (name, target) => (name, Text.dropEnd [')'] target)
  | none => (inner, [])

/-- A code span without its backticks; unchanged if it does not have both. -/
def stripBackticks (t : Text) : Text :=
  match ['`'].isPrefixOf? t with
  | none => t
  | some rest => (['`'].isSuffixOf? rest).getD t

/-- The node of an inline token that is not a marker. -/
def ofInline (t : Token) : Node :=
  match t.kind with
  | .code => leaf .code t.start (stripBackticks t.value)
  | .url => { kind := .anchor, pos := t.start, data := t.value, href := t.value }
  | .link =>
    let (name, target) := splitLink t.value
    { kind := .anchor, pos := t.start, data := name, href := target }
  | _ => leaf .text t.start t.value

def ofIndented (t : Token) : Node :=
  leaf .preformatted t.start (Text.reindent (Text.trimEnd t.value))

structure Builder where
  /-- The blocks that are complete, newest first. -/
  blocks : List Node := []
  paragraph? : Option OpenParagraph := none

namespace Builder

def closeParagraph (b : Builder) : Builder :=
  { blocks := (b.paragraph?.bind OpenParagraph.close?).toList ++ b.blocks }

def addInline (p : OpenParagraph) (t : Token) : OpenParagraph :=
  match t.kind with
  | .star => p.mark .emphasis t.start
  | .doubleStar => p.mark .strong t.start
  | _ => p.push (ofInline t)

/-- Adds a token. An inline token outside a paragraph opens one. -/
def add (b : Builder) (t : Token) : Builder :=
  match t.kind with
  | .paragraph => { b.closeParagraph with paragraph? := some { pos := t.start } }
  | .indented =>
    let b := b.closeParagraph
    { b with blocks := ofIndented t :: b.blocks }
  | _ => { b with paragraph? := some (addInline (b.paragraph?.getD { pos := t.start }) t) }

def finish (b : Builder) : Node := branch .root 0 b.closeParagraph.blocks.reverse

end Builder

/-- The tree of a list of tokens, of which those from the end of the text on do not count. -/
def ofTokens (ts : List Token) : Node :=
  ((ts.takeWhile (·.kind != .finish)).foldl Builder.add {}).finish

def ofText (t : Text) : Node := ofTokens (Token.scan t)

end DocComment.Node
