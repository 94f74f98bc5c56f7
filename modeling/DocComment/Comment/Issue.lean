import DocComment.Span
import DocComment.Text.Quoted

/-!
# What can be wrong with the source of a comment

An issue says what was found and where. No issue stops the reading of a source.
-/

namespace DocComment

namespace Issue

inductive Kind where
  /-- A delimiter that is never closed. -/
  | unclosed
  /-- Something other than a comment. -/
  | stray
deriving DecidableEq, Repr

/-- The name of a cause, as reports print it. -/
def Kind.name : Kind → Text
  | .unclosed => "UnclosedDelimiter".toList
  | .stray => "InvalidSyntax".toList

def Kind.number : Kind → Nat
  | .unclosed => 0
  | .stray => 1

end Issue

/-- A fault in the source of a comment. -/
structure Issue where
  kind : Issue.Kind
  /-- What is unclosed or astray. -/
  what : Text
  span : Option Span := none
deriving DecidableEq, Repr

namespace Issue

/-- The message for a reader, without the place. -/
def message (i : Issue) : Text :=
  match i.kind with
  | .unclosed => "unclosed ".toList ++ i.what
  | .stray => "expected a comment, found ".toList ++ i.what

/-- Whether the reading of the source goes on after the issue: it always does. -/
def recoverable (_ : Issue) : Bool := true

/-- The message with the place, if it is known. -/
def describe (i : Issue) : Text :=
  match i.span with
  | none => i.message
  | some span => i.message ++ " at bytes ".toList ++ span.range

/-- An issue in call form. -/
def summary (i : Issue) : Text :=
  "ParseError(".toList ++ Text.quote i.message ++ ", ".toList ++ i.kind.name ++ ")".toList

end Issue

end DocComment
