import DocComment.Text.Blank
import DocComment.Token

/-!
# A text while it is read

A window divides a text in three: what has been dealt with, the stretch that is held for the next
token, and what lies ahead. The two parts that have been read are kept nearest first. Reading moves
characters from ahead into the stretch, and releasing the stretch starts a new one. The offsets of
the two boundaries are kept along.
-/

namespace DocComment

structure Window where
  /-- What stands before the stretch, last character first. -/
  before : Text := []
  /-- The stretch held, last character first. -/
  held : Text := []
  ahead : Text
  /-- The offset of the stretch. -/
  start : Nat := 0
  /-- The offset of what lies ahead. -/
  pos : Nat := 0
  start_eq : start = Text.size before := by rfl
  pos_eq : pos = start + Text.size held := by rfl

namespace Window

def ofText (t : Text) : Window := { ahead := t }

def text (w : Window) : Text := w.before.reverse ++ w.held.reverse ++ w.ahead

def readChar (w : Window) : Window :=
  match w.ahead with
  | [] => w
  | c :: rest =>
    { before := w.before, held := c :: w.held, ahead := rest, start := w.start,
      pos := w.pos + c.utf8Size, start_eq := w.start_eq,
      pos_eq := by rw [w.pos_eq, Text.size_cons, Nat.add_comm c.utf8Size, Nat.add_assoc] }

/-- Reads `n` characters, or all that are left. -/
def read : Nat → Window → Window
  | 0, w => w
  | n + 1, w => read n w.readChar

/-- Reads up to the offset `target`. -/
def readTo (target : Nat) (w : Window) : Window :=
  w.read (Text.charsWithin (target - w.pos) w.ahead)

/-- Ends the stretch and begins a new one, which is empty. -/
def release (w : Window) : Window where
  before := w.held ++ w.before
  ahead := w.ahead
  start := w.pos
  pos := w.pos
  start_eq := by rw [w.pos_eq, w.start_eq, Text.size_append, Nat.add_comm]

/-- The offset of the first character ahead of a class, or of the end of the text. -/
def find (w : Window) (p : Char → Bool) : Nat :=
  w.pos + Text.size (w.ahead.takeWhile fun c => !p c)

/-- The word that ends where the part ahead begins, last character first. -/
def word (w : Window) : Text := (w.held ++ w.before).takeWhile isWord

def token (w : Window) (kind : Token.Kind) : Token :=
  Token.ofText kind w.held.reverse w.start.toUInt32

/-! ### What reading does to the parts -/

variable (w : Window) (n : Nat)

theorem text_readChar : w.readChar.text = w.text := by
  unfold readChar
  split
  · rfl
  · next c rest h => simp [text, h]

@[simp] theorem text_read : (w.read n).text = w.text := by
  induction n generalizing w with
  | zero => rfl
  | succ n ih => rw [read, ih, text_readChar]

@[simp] theorem text_release : w.release.text = w.text := by simp [text, release]

theorem ahead_readChar : w.readChar.ahead = w.ahead.drop 1 := by
  unfold readChar
  split <;> simp [*]

@[simp] theorem ahead_read : (w.read n).ahead = w.ahead.drop n := by
  induction n generalizing w with
  | zero => rfl
  | succ n ih => rw [read, ih, ahead_readChar, List.drop_drop, Nat.add_comm]

theorem held_readChar : w.readChar.held = (w.ahead.take 1).reverse ++ w.held := by
  unfold readChar
  split <;> simp [*]

@[simp] theorem held_read : (w.read n).held = (w.ahead.take n).reverse ++ w.held := by
  induction n generalizing w with
  | zero => rfl
  | succ n ih =>
    rw [read, ih, ahead_readChar, held_readChar]
    cases w.ahead <;> simp

@[simp] theorem before_readChar : w.readChar.before = w.before := by
  unfold readChar
  split <;> rfl

@[simp] theorem before_read : (w.read n).before = w.before := by
  induction n generalizing w with
  | zero => rfl
  | succ n ih => rw [read, ih, before_readChar]

@[simp] theorem ahead_release : w.release.ahead = w.ahead := rfl

@[simp] theorem held_release : w.release.held = [] := rfl

end Window

end DocComment
