import DocComment.Markup
import DocComment.Text.Indentation
import Mathlib.Data.List.DropRight

/-!
# Lines and white space at their ends

Lines are cut at line feeds and joined by them: `Text.lines` and `Text.unlines` undo each other. The
end of a text is trimmed by cutting it into a part that does not end with white space
(`Text.Trimmed`) and a part that is nothing else (`Text.White`); `Text.trimEnd` is read off from such
a division.
-/

namespace DocComment

namespace Markup

theorem startsWith_dropWhile (p : Char → Bool) (t : Text) : startsWith p (t.dropWhile p) = false := by
  have hhead := List.head?_dropWhile_not p t
  cases hdrop : t.dropWhile p with
  | nil => rfl
  | cons c u =>
    rw [hdrop] at hhead
    exact hhead

end Markup

namespace Text

/-- A text of white space. -/
def White (t : Text) : Prop := ∀ c ∈ t, isWhite c = true

/-- The text does not end with white space. -/
def Trimmed (t : Text) : Prop := ∀ c ∈ t.getLast?, isWhite c = false

instance (t : Text) : Decidable (White t) := List.decidableBAll _ t

instance (t : Text) : Decidable (Trimmed t) := Option.decidableForallMem t.getLast?

theorem White.append {t u : Text} (ht : White t) (hu : White u) : White (t ++ u) :=
  List.forall_mem_append.2 ⟨ht, hu⟩

theorem White.filter_eq_nil {t : Text} (h : White t) : t.filter (!isWhite ·) = [] := by
  refine List.filter_eq_nil_iff.2 fun c hc => ?_
  simp [h c hc]

theorem white_of_isIndent {t : Text} (h : ∀ c ∈ t, isIndent c = true) : White t := by
  intro c hc
  refine isWhite_of_isBlank ?_
  rw [isBlank, h c hc, Bool.true_or]

theorem not_mem_of_isIndent {t : Text} (h : ∀ c ∈ t, isIndent c = true) {c : Char}
    (hc : isIndent c = false) : c ∉ t := by
  intro hmem
  rw [h c hmem] at hc
  cases hc

theorem Trimmed.append (t : Text) {u : Text} (h : Trimmed u) (hne : u ≠ []) : Trimmed (t ++ u) := by
  intro c hc
  rw [List.getLast?_append_of_ne_nil _ hne] at hc
  exact h c hc

theorem Trimmed.not_white {t : Text} (h : Trimmed t) (hne : t ≠ []) : ¬ White t := by
  intro hwhite
  have hlast := h _ (List.getLast?_eq_some_getLast hne)
  rw [hwhite _ (List.getLast_mem hne)] at hlast
  cases hlast

/-! ### Trimming -/

theorem trimEnd_eq_nil_iff {t : Text} : trimEnd t = [] ↔ White t := List.rdropWhile_eq_nil_iff

theorem trimmed_iff {t : Text} : Trimmed t ↔ trimEnd t = t := by
  refine Iff.trans ?_ List.rdropWhile_eq_self_iff.symm
  constructor
  · intro h hne
    simp [h _ (List.getLast?_eq_some_getLast hne)]
  · intro h c hc
    obtain ⟨hne, rfl⟩ := List.mem_getLast?_eq_getLast hc
    simpa using h hne

theorem trimmed_trimEnd (t : Text) : Trimmed (trimEnd t) :=
  trimmed_iff.2 (List.rdropWhile_idempotent isWhite t)

theorem trimEnd_append {t u : Text} (h : White u) : trimEnd (t ++ u) = trimEnd t := by
  rw [trimEnd, List.reverse_append, List.dropWhile_append_of_pos, trimEnd]
  intro c hc
  exact h c (List.mem_reverse.1 hc)

theorem trimEnd_append_of_trimmed {t u : Text} (ht : Trimmed t) (hu : White u) :
    trimEnd (t ++ u) = t := by
  rw [trimEnd_append hu]
  exact trimmed_iff.1 ht

theorem exists_trimEnd (t : Text) : ∃ tail, White tail ∧ t = trimEnd t ++ tail := by
  refine ⟨t.rtakeWhile isWhite, fun c => List.mem_rtakeWhile_imp, ?_⟩
  exact List.rdropWhile_append_rtakeWhile.symm

/-! ### Lines -/

theorem newline_not_mem_of_mem_lines {t l : Text} (h : l ∈ lines t) : '\n' ∉ l := by
  induction t generalizing l with
  | nil =>
    obtain rfl := List.mem_singleton.1 h
    exact List.not_mem_nil
  | cons c t ih =>
    rw [lines, List.splitOn_cons_eq_if_modifyHead] at h
    split at h
    · rcases List.mem_cons.1 h with rfl | h
      · exact List.not_mem_nil
      · exact ih h
    · next hc =>
      obtain ⟨m, ms, hms⟩ := List.exists_cons_of_ne_nil (List.splitOn_ne_nil '\n' t)
      rw [lines, hms] at ih
      rw [hms, List.modifyHead_cons] at h
      rcases List.mem_cons.1 h with rfl | h
      · have hne : '\n' ≠ c := fun heq => hc (beq_iff_eq.2 heq.symm)
        simpa [hne] using ih List.mem_cons_self
      · exact ih (List.mem_cons_of_mem m h)

theorem lines_newline (t : Text) : lines ('\n' :: t) = [] :: lines t := by
  rw [lines, List.splitOn_cons_eq_if_modifyHead]
  rfl

theorem lines_cons {c : Char} (h : c ≠ '\n') (t : Text) :
    lines (c :: t) = (lines t).modifyHead (c :: ·) := by
  rw [lines, List.splitOn_cons_eq_if_modifyHead, if_neg (by simpa using h)]
  rfl

theorem lines_ne_nil (t : Text) : lines t ≠ [] := List.splitOn_ne_nil '\n' t

theorem lines_of_newline_not_mem {t : Text} (h : '\n' ∉ t) : lines t = [t] :=
  List.splitOn_eq_singleton h

theorem unlines_lines (t : Text) : unlines (lines t) = t := List.intercalate_splitOn '\n'

theorem lines_unlines {ls : List Text} (h : ∀ l ∈ ls, '\n' ∉ l) (hne : ls ≠ []) :
    lines (unlines ls) = ls := List.splitOn_intercalate '\n' h hne

@[simp] theorem unlines_singleton (l : Text) : unlines [l] = l := List.intercalate_singleton

theorem unlines_cons (l : Text) {ls : List Text} (h : ls ≠ []) :
    unlines (l :: ls) = l ++ '\n' :: unlines ls := by
  obtain ⟨m, ls, rfl⟩ := List.exists_cons_of_ne_nil h
  rw [unlines, List.intercalate_cons_cons, List.append_assoc]
  rfl

end Text

end DocComment
