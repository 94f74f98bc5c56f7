import DocComment.Text.Basic

/-!
# Spans

A span is a range of byte offsets in a text, as 32-bit numbers. A span whose bounds are in the
wrong order is empty and covers nothing.
-/

namespace DocComment

/-- The byte offsets from `start` up to, and without, `stop`. -/
structure Span where
  start : UInt32
  stop : UInt32
deriving DecidableEq, Repr

namespace Span

/-- The span of a text that begins at `start`. -/
def ofText (start : UInt32) (t : Text) : Span := ⟨start, start + (Text.size t).toUInt32⟩

def length (s : Span) : UInt32 := if s.start ≤ s.stop then s.stop - s.start else 0

def isEmpty (s : Span) : Bool := s.stop ≤ s.start

/-- Whether a span covers the byte at `offset`. -/
def contains (s : Span) (offset : UInt32) : Bool := s.start ≤ offset && offset < s.stop

/-- The least span that covers both. -/
def hull (s t : Span) : Span := ⟨min s.start t.start, max s.stop t.stop⟩

/-- The part of a text that a span covers; empty if the bounds do not lie between characters of
the text or are in the wrong order. -/
def slice (s : Span) (source : Text) : Text :=
  if s.start ≤ s.stop then
    match Text.cutAt? s.start.toNat source with
    | none => []
    | some (_, after) =>
      match Text.cutAt? (s.stop.toNat - s.start.toNat) after with
      | none => []
      | some (covered, _) => covered
  else []

/-- A span in call form. -/
def summary (s : Span) : Text :=
  "Span(".toList ++ Text.ofNat s.start.toNat ++ ", ".toList ++ Text.ofNat s.stop.toNat ++ ")".toList

/-- A span as a range. -/
def range (s : Span) : Text :=
  Text.ofNat s.start.toNat ++ "..".toList ++ Text.ofNat s.stop.toNat

end Span

end DocComment
