import DocComment.Comment.Basic
import DocComment.Comment.Issue

/-!
# Cutting a source into raw comments

`Split.ofSource` cuts a source into pieces: line comments, block comments, and whatever else is not
white space. Every piece is kept. A piece that is not a complete comment gives rise to an issue.
-/

namespace DocComment

inductive Piece.Form where
  | line
  /-- A block comment with its closing delimiter. -/
  | block
  /-- A block comment that takes the rest of the source. -/
  | unclosed
  /-- A line, or the rest of one, that is not a comment. -/
  | stray
deriving DecidableEq, Repr

structure Piece where
  form : Piece.Form
  /-- The offset of its first byte in the source. -/
  start : Nat
  text : Text
deriving DecidableEq, Repr

namespace Piece

def span (p : Piece) : Span := Span.ofText p.start.toUInt32 p.text

/-- The issue that a piece gives rise to. -/
def issue? (p : Piece) : Option Issue :=
  match p.form with
  | .line | .block => none
  | .unclosed => some { kind := .unclosed, what := "block comment".toList, span := some p.span }
  | .stray => some { kind := .stray, what := "text".toList, span := some p.span }

theorem length_drop_dropWhile_lt {source : Text} {n : Nat} (hn : 0 < n) (h : source ≠ []) :
    ((source.dropWhile isIndent).drop n).length < source.length := by
  have hrest : (source.dropWhile isIndent).length ≤ source.length :=
    (List.dropWhile_suffix _).length_le
  have hpos : 0 < source.length := List.length_pos_iff.2 h
  simp only [List.length_drop]
  omega

/-- The pieces of a source that begins at `offset`. Spaces and tabs in front of a piece, blank lines
and white space at the end of a line belong to no piece. What follows a block comment on its last
line is cut as if it stood on a line of its own. -/
def ofSource (offset : Nat) (source : Text) : List Piece :=
  if source = [] then []
  else
    let start := offset + Text.size (source.takeWhile isIndent)
    let rest := source.dropWhile isIndent
    let line := rest.takeWhile (· != '\n')
    let body := Text.trimEnd line
    let nextOffset := start + Text.size line + 1
    let next := rest.drop (line.length + 1)
    if body.isEmpty then ofSource nextOffset next
    else if Comment.lineMarker.isPrefixOf body then
      { form := .line, start, text := body } :: ofSource nextOffset next
    else if Comment.blockOpen.isPrefixOf body then
      match Text.cut? Comment.blockClose (rest.drop 2) with
      | some (content, _) =>
        let block := Comment.blockOpen ++ content ++ Comment.blockClose
        { form := .block, start, text := block } ::
          ofSource (start + Text.size block) (rest.drop block.length)
      | none => [{ form := .unclosed, start, text := rest }]
    else { form := .stray, start, text := body } :: ofSource nextOffset next
termination_by source.length
decreasing_by
  · exact length_drop_dropWhile_lt (Nat.succ_pos _) ‹_›
  · exact length_drop_dropWhile_lt (Nat.succ_pos _) ‹_›
  · exact length_drop_dropWhile_lt (by simp [Comment.blockOpen]) ‹_›
  · exact length_drop_dropWhile_lt (Nat.succ_pos _) ‹_›

end Piece

structure Split where
  pieces : List Piece
deriving DecidableEq, Repr

namespace Split

def ofSource (source : Text) : Split := ⟨Piece.ofSource 0 source⟩

/-- The raw comments, stray text included. -/
def comments (s : Split) : List Text := s.pieces.map (·.text)

/-- The issues, in the order of the source. -/
def issues (s : Split) : List Issue := s.pieces.filterMap (·.issue?)

/-- Whether the source holds nothing but complete comments. -/
def isClean (s : Split) : Bool := s.issues.isEmpty

/-- The raw comments of a source without issues; the first issue otherwise. -/
def strict (s : Split) : Except Issue (List Text) :=
  match s.issues with
  | [] => .ok s.comments
  | issue :: _ => .error issue

/-- A split in call form. -/
def summary (s : Split) : Text :=
  "SplitResult(ok=".toList ++ (if s.isClean then "true".toList else "false".toList) ++
    ", lines=".toList ++ Text.ofNat s.comments.length ++ ", errors=".toList ++
    Text.ofNat s.issues.length ++ ")".toList

end Split

end DocComment
