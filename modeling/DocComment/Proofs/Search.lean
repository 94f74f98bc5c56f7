import DocComment.Proofs.Offsets
import DocComment.Scanner.Basic

/-!
# Searches for markup

A scanner keeps where its last searches ended and uses a result again as long as it does not lie
behind. `Window.Cached` says of such a result that it is what a new search would find. Reading on
keeps it (`Cached.read`), because a result is either passed, and then not used, or still ahead with
nothing of its class in front. So `Scanner.seek` reads exactly the characters in front of the next
special one (`Searches.window_seek`).
-/

namespace DocComment

namespace Window
variable {w : Window} {p : Char → Bool} {cache : Option Nat}

theorem ahead_read_length {m rest : Text} (h : w.ahead = m ++ rest) :
    (w.read m.length).ahead = rest := by
  rw [ahead_read, h, List.drop_left]

theorem held_read_length {m rest : Text} (h : w.ahead = m ++ rest) :
    (w.read m.length).held = m.reverse ++ w.held := by
  rw [held_read, h, List.take_left]

@[simp] theorem start_read (w : Window) (n : Nat) : (w.read n).start = w.start := by
  rw [(w.read n).start_eq, w.start_eq, before_read]

/-- The first of two searches to end finds the first character of either class. -/
theorem min_find (w : Window) (p q : Char → Bool) :
    min (w.find p) (w.find q) = w.find fun c => p c || q c := by
  have := Text.min_size_takeWhile p q w.ahead
  simp only [find]
  omega

/-- A result of an earlier search for a class is what a new search finds, unless it lies behind. -/
def Cached (p : Char → Bool) (w : Window) (cache : Option Nat) : Prop :=
  ∀ i ∈ cache, w.pos ≤ i → i = w.find p

theorem Cached.none : Cached p w none := fun _ h => by cases h

theorem Cached.find : Cached p w (some (w.find p)) := by
  rintro i hi -
  exact (Option.some.inj hi).symm

theorem Cached.release (h : Cached p w cache) : Cached p w.release cache := h

theorem Cached.readChar (h : Cached p w cache) : Cached p w.readChar cache := by
  intro i hi hle
  unfold Window.readChar at hle ⊢
  split at hle
  · next hnil => simpa only [hnil] using h i hi hle
  · next c rest hcons =>
    replace hle : w.pos + c.utf8Size ≤ i := hle
    have hold : i = w.find p := h i hi (by omega)
    rw [Window.find, hcons, List.takeWhile_cons] at hold
    split at hold
    · rw [hold]
      simp only [Window.find, Text.size_cons]
      omega
    · simp only [Text.size_nil] at hold
      have := Char.utf8Size_pos c
      omega

theorem Cached.read (h : Cached p w cache) (n : Nat) : Cached p (w.read n) cache := by
  induction n generalizing w with
  | zero => exact h
  | succ n ih => exact ih h.readChar

end Window

namespace Scanner
variable {s : Scanner}

/-- The characters that end plain text. -/
def isSpecial (c : Char) : Bool := isMarker c || isBreak c

theorem isSpecial_of_dropWhile {t rest : Text} {c : Char}
    (h : t.dropWhile (fun c => !isSpecial c) = c :: rest) : isSpecial c = true := by
  have hhead := List.head?_dropWhile_not (fun c => !isSpecial c) t
  rw [h] at hhead
  simpa using hhead

structure Searches (s : Scanner) : Prop where
  marker : s.window.Cached isMarker s.marker?
  brk : s.window.Cached isBreak s.break?

theorem locate_eq_find {cache : Option Nat} {p : Char → Bool} (h : s.window.Cached p cache) :
    s.locate cache p = s.window.find p := by
  cases cache with
  | none => rfl
  | some i =>
    simp only [locate]
    split
    · next hle =>
      simp only [Bool.and_eq_true, decide_eq_true_eq] at hle
      exact h i rfl hle.2
    · rfl

/-- If both results are what new searches find, seeking reads up to the first special character. -/
theorem window_seek_of_locate (hmarker : s.locate s.marker? isMarker = s.window.find isMarker)
    (hbrk : s.locate s.break? isBreak = s.window.find isBreak) :
    s.seek.window = s.window.readTo (s.window.find isSpecial) := by
  simp only [seek, hmarker, hbrk, Window.min_find]
  rfl

namespace Searches

theorem window_seek_eq_readTo (h : s.Searches) :
    s.seek.window = s.window.readTo (s.window.find isSpecial) :=
  window_seek_of_locate (locate_eq_find h.marker) (locate_eq_find h.brk)

/-- Seeking reads up to the next special character. -/
theorem window_seek (h : s.Searches) :
    s.seek.window = s.window.read (s.window.ahead.takeWhile fun c => !isSpecial c).length := by
  have hchars := Text.charsWithin_size_append (s.window.ahead.takeWhile fun c => !isSpecial c)
    (s.window.ahead.dropWhile fun c => !isSpecial c)
  rw [List.takeWhile_append_dropWhile] at hchars
  rw [h.window_seek_eq_readTo, Window.readTo, Window.find, Nat.add_sub_cancel_left, hchars]

theorem seek (h : s.Searches) : s.seek.Searches := by
  constructor
  · show Window.Cached _ (s.window.read _) (some (s.locate s.marker? isMarker))
    rw [locate_eq_find h.marker]
    exact Window.Cached.find.read _
  · show Window.Cached _ (s.window.read _) (some (s.locate s.break? isBreak))
    rw [locate_eq_find h.brk]
    exact Window.Cached.find.read _

theorem ahead_seek (h : s.Searches) :
    s.seek.window.ahead = s.window.ahead.dropWhile fun c => !isSpecial c := by
  rw [h.window_seek]
  exact Window.ahead_read_length List.takeWhile_append_dropWhile.symm

theorem held_seek (h : s.Searches) :
    s.seek.window.held =
      (s.window.ahead.takeWhile fun c => !isSpecial c).reverse ++ s.window.held := by
  rw [h.window_seek]
  exact Window.held_read_length List.takeWhile_append_dropWhile.symm

end Searches

end Scanner

end DocComment
