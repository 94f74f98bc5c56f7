import DocComment.Text.Basic

/-!
# Classes of characters

The classes that decide where comments, lines and words end. `isWhite` is the Unicode property
White_Space; the other classes hold ASCII characters only.
-/

namespace DocComment

/-- Line feed and carriage return. -/
def isNewline (c : Char) : Bool := c == '\n' || c == '\r'

/-- Space and tab, the characters of an indentation. -/
def isIndent (c : Char) : Bool := c == ' ' || c == '\t'

/-- Space, tab, line feed and carriage return. -/
def isBlank (c : Char) : Bool := isIndent c || isNewline c

/-- ASCII letters, digits and the underscore. -/
def isWord (c : Char) : Bool := c.isAlphanum || c == '_'

/-- The first and last code points of each range of White_Space. -/
def whiteRanges : List (Nat × Nat) :=
  [(0x09, 0x0D), (0x20, 0x20), (0x85, 0x85), (0xA0, 0xA0), (0x1680, 0x1680), (0x2000, 0x200A),
    (0x2028, 0x2029), (0x202F, 0x202F), (0x205F, 0x205F), (0x3000, 0x3000)]

/-- Whether a character has the Unicode property White_Space. -/
def isWhite (c : Char) : Bool := whiteRanges.any fun (lo, hi) => lo ≤ c.toNat && c.toNat ≤ hi

theorem isWhite_of_isBlank {c : Char} (h : isBlank c = true) : isWhite c = true := by
  simp only [isBlank, isIndent, isNewline, Bool.or_eq_true, beq_iff_eq] at h
  rcases h with (rfl | rfl) | (rfl | rfl) <;> decide

namespace Text

/-- The text without the white space at its end. -/
def trimEnd (t : Text) : Text := (t.reverse.dropWhile isWhite).reverse

end Text

end DocComment
