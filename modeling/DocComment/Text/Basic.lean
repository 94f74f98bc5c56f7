/-!
# Texts and byte offsets

A text is the list of its characters. Offsets into a text count the bytes of its UTF-8 form, so
`Text.size` is the length that offsets speak of, and `Text.cutAt?` cuts a text at an offset that
lies between two characters.
-/

namespace DocComment

abbrev Text := List Char

namespace Text

/-- The number of bytes of the UTF-8 form of a text. -/
def size : Text → Nat
  | [] => 0
  | c :: t => c.utf8Size + size t

@[simp] theorem size_nil : size [] = 0 := rfl

@[simp] theorem size_cons (c : Char) (t : Text) : size (c :: t) = c.utf8Size + size t := rfl

@[simp] theorem size_append (t u : Text) : size (t ++ u) = size t + size u := by
  induction t with
  | nil => simp
  | cons c t ih => simp [ih, Nat.add_assoc]

@[simp] theorem size_reverse (t : Text) : size t.reverse = size t := by
  induction t with
  | nil => rfl
  | cons c t ih => simp [ih, Nat.add_comm]

/-- The two parts of a text at the offset `n`, or `none` if `n` lies inside a character or beyond
the end. -/
def cutAt? : Nat → Text → Option (Text × Text)
  | 0, t => some ([], t)
  | _ + 1, [] => none
  | n + 1, c :: t =>
    if c.utf8Size ≤ n + 1 then
      (cutAt? (n + 1 - c.utf8Size) t).map fun (before, after) => (c :: before, after)
    else none

/-- The number of characters in the shortest beginning of a text that has `n` bytes or more; all
of them if there is none. -/
def charsWithin : Nat → Text → Nat
  | 0, _ => 0
  | _ + 1, [] => 0
  | n + 1, c :: t => charsWithin (n + 1 - c.utf8Size) t + 1

/-- What stands before and after the first occurrence of `sep`. -/
def cut? (sep : Text) : Text → Option (Text × Text)
  | [] => (sep.isPrefixOf? []).map ([], ·)
  | c :: t =>
    match sep.isPrefixOf? (c :: t) with
    | some rest => some ([], rest)
    | none => (cut? sep t).map fun (before, after) => (c :: before, after)

/-- The text without `pre` at its beginning; unchanged if it does not begin so. -/
def dropStart (pre t : Text) : Text := (pre.isPrefixOf? t).getD t

/-- The text without `post` at its end; unchanged if it does not end so. -/
def dropEnd (post t : Text) : Text := (post.isSuffixOf? t).getD t

/-- The decimal digits of a number. -/
def ofNat (n : Nat) : Text := Nat.toDigits 10 n

/-- The number that a text of decimal digits stands for. -/
def toNat? (t : Text) : Option Nat :=
  if t.isEmpty || t.any (!·.isDigit) then none else some (Nat.ofDigitChars 10 t 0)

/-- The text with spaces in front, `width` characters wide at least. -/
def padStart (width : Nat) (t : Text) : Text := List.replicate (width - t.length) ' ' ++ t

/-- The text with spaces after it, `width` characters wide at least. -/
def padEnd (width : Nat) (t : Text) : Text := t ++ List.replicate (width - t.length) ' '

end Text

end DocComment
