import DocComment.Span
import DocComment.Text.Quoted

/-!
# Tokens

A token is a stretch of a text with the part it plays. Paragraphs begin with a token of their own,
which covers nothing, and so does the end of the text.
-/

namespace DocComment

namespace Token

inductive Kind where
  /-- The beginning of a paragraph. -/
  | paragraph
  | text
  | star
  | doubleStar
  /-- A code span with its backticks. -/
  | code
  /-- A URL that stands in the text. -/
  | url
  | link
  /-- A run of indented lines. -/
  | indented
  | finish
deriving DecidableEq, Repr

namespace Kind

/-- All kinds, in the order of their codes. -/
def all : List Kind :=
  [paragraph, text, star, doubleStar, code, url, link, indented, finish]

/-- The name of a kind, as listings print it. -/
def name : Kind → Text
  | paragraph => "ParagraphStart".toList
  | text => "Text".toList
  | star => "Star".toList
  | doubleStar => "StarStar".toList
  | code => "Raw".toList
  | url => "Url".toList
  | link => "NamedUrl".toList
  | indented => "Indent".toList
  | finish => "Eof".toList

def number : Kind → Nat
  | paragraph => 0
  | text => 1
  | star => 2
  | doubleStar => 3
  | code => 4
  | url => 5
  | link => 6
  | indented => 7
  | finish => 8

end Kind

end Token

/-- A stretch of a text with the part it plays. -/
structure Token where
  kind : Token.Kind
  value : Text
  span : Span
deriving DecidableEq, Repr

namespace Token

/-- The token of a stretch that begins at `start`. -/
def ofText (kind : Kind) (value : Text) (start : UInt32) : Token :=
  { kind, value, span := Span.ofText start value }

def start (t : Token) : UInt32 := t.span.start

/-- A token in call form. -/
def summary (t : Token) : Text :=
  "Token(".toList ++ t.kind.name ++ ", ".toList ++ Text.quote t.value ++ ", ".toList ++
    t.span.range ++ ")".toList

end Token

end DocComment
