import DocComment.Proofs.BlockComments
import Mathlib.Data.List.Forall2
import Mathlib.Order.Bounds.Basic

/-!
# Taking the common indentation away

`Text.reindented_reindent` says what becomes of every line of a text. The lines that are indented and
not blank (`Text.IsIndented`) lose the least of their indentations and are the same apart from that.
What any other line loses is blank and not longer.

Lines are measured by spaces and tabs and cut by any blank characters. Both count bytes, and blank
characters are single bytes, so the cut never falls inside a character.
-/

namespace DocComment

theorem utf8Size_of_isBlank {c : Char} (h : isBlank c = true) : c.utf8Size = 1 := by
  simp only [isBlank, isIndent, isNewline, Bool.or_eq_true, beq_iff_eq] at h
  rcases h with (rfl | rfl) | (rfl | rfl) <;> rfl

namespace Text

/-- A line that is indented and not blank. -/
def IsIndented (line : Text) : Prop :=
  line.all isBlank = false ∧ Markup.startsWith isIndent line = true

/-- The number of bytes of the indentation of a line. -/
def indentSize (line : Text) : Nat := size (line.takeWhile isIndent)

/-- What is left of a line when `n` bytes of indentation are taken away. -/
structure Outdents (n : Nat) (line short : Text) : Prop where
  /-- Nothing is lost but blank characters. -/
  exists_removed : ∃ removed, line = removed ++ short ∧ removed.all isBlank = true ∧
    size removed ≤ n
  /-- An indented line loses just its first `n` bytes. -/
  cutAt?_eq : IsIndented line →
    ∃ removed, cutAt? n line = some (removed, short) ∧ removed.all isIndent = true
  indentSize_eq : IsIndented line → indentSize line = n + indentSize short
  eq_of_not_blank : Markup.startsWith isBlank line = false → short = line

/-- The lines of `u` are those of `t` without their common indentation. -/
structure Reindented (t u : Text) : Prop where
  length_eq : (lines u).length = (lines t).length
  eq_of_unindented : (∀ line ∈ lines t, ¬ IsIndented line) → u = t
  /-- The least indentation is taken away, so one of the indented lines is no longer indented. -/
  outdents : (∃ line ∈ lines t, IsIndented line) →
    ∃ n, 0 < n ∧ IsLeast {k | ∃ line ∈ lines t, IsIndented line ∧ indentSize line = k} n ∧
      List.Forall₂ (Outdents n) (lines t) (lines u) ∧
      ∃ p ∈ (lines t).zip (lines u), IsIndented p.1 ∧ Markup.startsWith isIndent p.2 = false

/-! ### Measuring -/

theorem size_of_all_isBlank {t : Text} (h : t.all isBlank = true) : size t = t.length := by
  induction t with
  | nil => rfl
  | cons c t ih =>
    rw [List.all_cons, Bool.and_eq_true] at h
    rw [size_cons, utf8Size_of_isBlank h.1, ih h.2, List.length_cons, Nat.add_comm]

theorem indentSize_eq_indentation (line : Text) : indentSize line = indentation line :=
  size_of_all_isBlank (all_isBlank fun _ hc => List.mem_takeWhile_imp hc)

theorem indentation_pos_iff {line : Text} :
    0 < indentation line ↔ Markup.startsWith isIndent line = true := by
  cases line with
  | nil => simp [indentation, Markup.startsWith]
  | cons c line =>
    show 0 < (List.takeWhile isIndent (c :: line)).length ↔ isIndent c = true
    cases hc : isIndent c <;> simp [hc]

theorem commonIndentation?_eq_none_iff {ls : List Text} :
    commonIndentation? ls = none ↔ ∀ line ∈ ls, ¬ IsIndented line := by
  rw [commonIndentation?, List.min?_eq_none_iff, List.filter_eq_nil_iff, List.forall_mem_map]
  simp [IsIndented, ← indentation_pos_iff]

theorem isLeast_of_commonIndentation? {ls : List Text} {n : Nat}
    (h : commonIndentation? ls = some n) :
    IsLeast {k | ∃ line ∈ ls, IsIndented line ∧ indentSize line = k} n := by
  obtain ⟨⟨line, hline, hblank, hpos, rfl⟩, hleast⟩ := commonIndentation?_eq_some_iff.1 h
  refine ⟨⟨line, hline, ⟨hblank, indentation_pos_iff.1 hpos⟩, indentSize_eq_indentation line⟩, ?_⟩
  rintro k ⟨line, hline, ⟨hblank, hstart⟩, rfl⟩
  rw [indentSize_eq_indentation]
  exact hleast line hline hblank (indentation_pos_iff.2 hstart)

/-! ### Cutting -/

theorem lines_reindent (t : Text) :
    lines (reindent t) =
      match commonIndentation? (lines t) with
      | none => lines t
      | some n => (lines t).map (outdent n) := by
  rw [reindent]
  cases commonIndentation? (lines t) with
  | none => rfl
  | some n =>
    refine lines_unlines (List.forall_mem_map.2 fun l hl hmem => ?_) ?_
    · exact newline_not_mem_of_mem_lines hl ((outdent_suffix n l).subset hmem)
    · simpa using lines_ne_nil t

/-- An indentation that is taken from an indented line leaves something of it. -/
theorem exists_outdent {line : Text} {n : Nat} (hblank : line.all isBlank = false)
    (hn : n ≤ indentation line) :
    ∃ indent, line = indent ++ outdent n line ∧ indent.length = n ∧
      ∀ c ∈ indent, isIndent c = true := by
  have hrun : ∀ c ∈ (line.takeWhile isIndent).take n, isIndent c = true := fun c hc =>
    List.mem_takeWhile_imp (List.mem_of_mem_take hc)
  have hlength : ((line.takeWhile isIndent).take n).length = n := List.length_take_of_le hn
  have hsplit : line = (line.takeWhile isIndent).take n ++
      ((line.takeWhile isIndent).drop n ++ line.dropWhile isIndent) := by
    rw [← List.append_assoc, List.take_append_drop, List.takeWhile_append_dropWhile]
  generalize (line.takeWhile isIndent).take n = indent at hrun hlength hsplit
  generalize (line.takeWhile isIndent).drop n ++ line.dropWhile isIndent = short at hsplit
  subst hsplit hlength
  have hne : short ≠ [] := by
    rintro rfl
    rw [List.append_nil, all_isBlank hrun] at hblank
    cases hblank
  exact ⟨indent, by rw [outdent_append hrun hne], rfl, hrun⟩

theorem outdent_of_not_blank {line : Text} {n : Nat} (hn : 0 < n)
    (h : Markup.startsWith isBlank line = false) : outdent n line = line := by
  cases line with
  | nil => exact outdent_nil n
  | cons c line =>
    obtain ⟨n, rfl⟩ := Nat.exists_eq_add_one.2 hn
    have hc : isBlank c = false := h
    rw [outdent, if_neg]
    simp [hc]

theorem outdents_outdent {line : Text} {n : Nat} (hn : 0 < n)
    (hle : IsIndented line → n ≤ indentation line) : Outdents n line (outdent n line) := by
  refine ⟨?_, fun hline => ?_, fun hline => ?_, outdent_of_not_blank hn⟩
  · rw [outdent]
    split
    · next hcut =>
      refine ⟨line.take n, (List.take_append_drop n line).symm, hcut.2, ?_⟩
      rw [size_of_all_isBlank hcut.2]
      exact List.length_take_le n line
    · exact ⟨[], rfl, rfl, Nat.zero_le n⟩
  · obtain ⟨indent, hsplit, hlength, hindent⟩ := exists_outdent hline.1 (hle hline)
    refine ⟨indent, ?_, List.all_eq_true.2 hindent⟩
    have hcut := cutAt?_size_append indent (outdent n line)
    rwa [← hsplit, size_of_all_isBlank (all_isBlank hindent), hlength] at hcut
  · obtain ⟨indent, hsplit, hlength, hindent⟩ := exists_outdent hline.1 (hle hline)
    have hsum := indentation_append hindent (outdent n line)
    rwa [← hsplit, hlength, ← indentSize_eq_indentation, ← indentSize_eq_indentation] at hsum

/-- Every text loses the common indentation of its lines and nothing else. -/
theorem reindented_reindent (t : Text) : Reindented t (reindent t) := by
  cases hcommon : commonIndentation? (lines t) with
  | none =>
    have hsame : reindent t = t := by rw [reindent, hcommon]
    have hnone := commonIndentation?_eq_none_iff.1 hcommon
    rw [hsame]
    refine ⟨rfl, fun _ => rfl, ?_⟩
    rintro ⟨line, hline, hindented⟩
    exact absurd hindented (hnone line hline)
  | some n =>
    have hlines : lines (reindent t) = (lines t).map (outdent n) := by rw [lines_reindent, hcommon]
    have hleast := isLeast_of_commonIndentation? hcommon
    obtain ⟨line, hline, hindented, hsize⟩ := hleast.1
    have hpos : 0 < n := by
      rw [← hsize, indentSize_eq_indentation]
      exact indentation_pos_iff.2 hindented.2
    have hall : ∀ l ∈ lines t, Outdents n l (outdent n l) := by
      refine fun l hl => outdents_outdent hpos fun hl' => ?_
      rw [← indentSize_eq_indentation]
      exact hleast.2 ⟨l, hl, hl', rfl⟩
    refine ⟨by rw [hlines, List.length_map], fun hnone => absurd hindented (hnone line hline),
      fun _ => ⟨n, hpos, hleast, ?_, (line, outdent n line), ?_, hindented, ?_⟩⟩
    · rw [hlines, List.forall₂_map_right_iff]
      exact List.forall₂_same.2 hall
    · rw [hlines, ← List.map_prod_left_eq_zip]
      exact List.mem_map_of_mem hline
    · have hzero := (hall line hline).indentSize_eq hindented
      rw [hsize, indentSize_eq_indentation] at hzero
      show Markup.startsWith isIndent (outdent n line) = false
      rw [← Bool.not_eq_true, ← indentation_pos_iff]
      omega

/-- A line that begins with returns is not measured, but can be cut. -/
example : reindent "  a\n\r\rb\nc".toList = "a\nb\nc".toList := by decide

end Text

end DocComment
