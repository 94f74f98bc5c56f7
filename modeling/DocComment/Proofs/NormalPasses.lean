import DocComment.Proofs.CarriageReturns
import DocComment.Proofs.NormalText
import Mathlib.Data.List.Destutter

/-!
# Normalizing pass by pass

`Comment.normalize` writes a text in one pass over all lines, with two flags. `Comment.passes` does
the same work one thing at a time: it takes the delimiters off, cuts lines, trims them, drops empty
lines at both ends, leaves one of each run of empty lines, and joins what is left. Both give the
same text (`Comment.normalize_eq_passes`).

The flags of the one pass have a meaning in terms of lines. `started` says that the lines to come
are not the first, and `blank` stands for one empty line in front of them
(`Comment.joinLines_started`).
It makes no difference whether that line was in the same raw comment.
-/

namespace DocComment

namespace Text

/-- Leaves out the empty lines that follow an empty line. -/
def squeeze (ls : List Text) : List Text := ls.destutter fun l m => l ≠ [] ∨ m ≠ []

/-- Leaves out the empty lines at both ends. -/
def dropEmptyEnds (ls : List Text) : List Text :=
  (ls.dropWhile List.isEmpty).rdropWhile List.isEmpty

theorem rdropWhile_cons (p : Text → Bool) (l : Text) (ls : List Text) :
    (l :: ls).rdropWhile p =
      if p l = true ∧ ls.rdropWhile p = [] then [] else l :: ls.rdropWhile p := by
  rw [List.rdropWhile, List.reverse_cons, List.dropWhile_append, List.rdropWhile]
  cases hdrop : ls.reverse.dropWhile p with
  | nil => cases hl : p l <;> simp [hl]
  | cons m ms => simp

theorem unlines_cons_eq_flatMap (l : Text) (ls : List Text) :
    unlines (l :: ls) = l ++ ls.flatMap ('\n' :: ·) := by
  induction ls generalizing l with
  | nil => simp
  | cons m ls ih =>
    rw [unlines_cons l (List.cons_ne_nil m ls), ih, List.flatMap_cons, List.cons_append]

/-! ### Lines behind a line that is not empty -/

/-- What is left of the lines behind a line that is not empty. -/
def spaced (ls : List Text) : List Text := squeeze (ls.rdropWhile List.isEmpty)

theorem spaced_cons {l : Text} (h : l ≠ []) (ls : List Text) :
    spaced (l :: ls) = l :: spaced ls := by
  rw [spaced, rdropWhile_cons, if_neg (by simp [h]), spaced]
  cases ls.rdropWhile List.isEmpty with
  | nil => rfl
  | cons m ms => exact (List.destutter_cons_cons ..).trans (if_pos (.inl h))

theorem spaced_empty_empty (ls : List Text) : spaced ([] :: [] :: ls) = spaced ([] :: ls) := by
  rw [spaced, rdropWhile_cons, spaced, rdropWhile_cons]
  by_cases hls : ls.rdropWhile List.isEmpty = []
  · simp [hls]
  · rw [if_neg (by simp [hls]), if_neg (by simp [hls])]
    exact (List.destutter_cons_cons ..).trans (if_neg (by simp))

theorem spaced_empty_cons {l : Text} (h : l ≠ []) (ls : List Text) :
    spaced ([] :: l :: ls) = [] :: l :: spaced ls := by
  have hcons := spaced_cons h ls
  rw [spaced, rdropWhile_cons, if_neg (by simp [h])] at hcons
  rw [spaced, rdropWhile_cons, rdropWhile_cons, if_neg (by simp [h]), if_neg (by simp [h]), ← hcons]
  exact (List.destutter_cons_cons ..).trans (if_pos (.inr h))

end Text

namespace Comment
open Text (spaced unlines)

/-- What the author wrote in a raw comment, read off from its first two characters. -/
def content : Text → Text
  | '/' :: '/' :: t => dropSpace t
  | '/' :: '*' :: t => dropSpace (Text.reindent (dropSpace (Text.dropEnd blockClose t)))
  | t => dropSpace t

/-- The normal text of raw comments, one pass behind the other. -/
def passes (comments : List Text) : Text :=
  let lines := comments.flatMap fun raw => Text.lines (content raw)
  unlines (Text.squeeze (Text.dropEmptyEnds (lines.map Text.trimEnd)))

theorem body_eq_content (raw : Text) : body raw = content raw := by
  unfold content
  split
  · rfl
  · rfl
  · next hline hblock =>
    have hstray : IsStray raw := by
      constructor
      · rintro ⟨t, rfl⟩
        exact hline t rfl
      · rintro ⟨t, rfl⟩
        exact hblock t rfl
    exact body_of_isStray hstray

/-- Lines behind one that has been written. The flag stands for an empty line in front of them. -/
theorem joinLines_started (blank : Bool) (ls : List Text) :
    joinLines true blank ls =
      (spaced ((if blank then [[]] else []) ++ ls.map Text.trimEnd)).flatMap ('\n' :: ·) := by
  induction ls generalizing blank with
  | nil => cases blank <;> rfl
  | cons line ls ih =>
    rw [List.map_cons]
    by_cases h : Text.trimEnd line = []
    · rw [joinLines_empty _ _ h, ih, h]
      cases blank with
      | false => rfl
      | true => exact congrArg (List.flatMap _) (Text.spaced_empty_empty _).symm
    · rw [joinLines_cons _ _ h, ih]
      cases blank with
      | false =>
        show _ = (spaced (Text.trimEnd line :: _)).flatMap _
        rw [Text.spaced_cons h]
        simp [separator]
      | true =>
        show _ = (spaced ([] :: Text.trimEnd line :: _)).flatMap _
        rw [Text.spaced_empty_cons h]
        simp [separator]

/-- Empty lines in front of the first line are left out. -/
theorem joinLines_eq_unlines (ls : List Text) :
    joinLines false false ls =
      unlines (Text.squeeze (Text.dropEmptyEnds (ls.map Text.trimEnd))) := by
  induction ls with
  | nil => rfl
  | cons line ls ih =>
    rw [List.map_cons, Text.dropEmptyEnds]
    by_cases h : Text.trimEnd line = []
    · rw [joinLines_empty _ _ h, ih, List.dropWhile_cons_of_pos (by simp [h])]
      rfl
    · have hstarted := joinLines_started false ls
      rw [joinLines_cons _ _ h, List.dropWhile_cons_of_neg (by simp [h]), hstarted]
      show _ = unlines (spaced (Text.trimEnd line :: _))
      rw [Text.spaced_cons h, Text.unlines_cons_eq_flatMap]
      rfl

/-- One pass over the lines of all raw comments gives what the single passes give one behind the
other. -/
theorem normalize_eq_passes (comments : List Text) : normalize comments = passes comments := by
  simp only [normalize, passes, body_eq_content, joinLines_eq_unlines]

end Comment

end DocComment
