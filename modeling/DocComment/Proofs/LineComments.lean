import DocComment.Document
import DocComment.Proofs.NormalText
import DocComment.Proofs.SourceRounds

/-!
# A text as line comments

Every text can be written as line comments, one for each of its lines (`Comment.lineComments`). For a
normal text this is undone by `Comment.normalize`, directly or after the comments have been joined to
a source and cut again (`Comment.normalize_recomment`). So the normal texts are just those that
`Comment.normalize` gives.

A source of line comments is read line by line, and a line loses white space at its end only
(`Piece.exists_cuts_unlines`).
-/

namespace DocComment

namespace Piece

/-- A line comment in a source. -/
theorem Round.of_isLine (n : Nat) {raw brk next : Text} (h : Comment.IsLine raw)
    (hbrk : LineEnd brk next) :
    Round n (raw ++ brk) next (some ⟨.line, n, Text.trimEnd raw⟩) := by
  obtain ⟨gap, hgap, hraw⟩ := Text.exists_trimEnd raw
  have hmarker := Text.isPrefix_trimEnd (by decide) h.1
  have htrimmed := Text.trimmed_trimEnd raw
  have hnewline := h.2
  rw [hraw] at hnewline
  generalize Text.trimEnd raw = body at hraw hmarker htrimmed hnewline
  subst hraw
  obtain ⟨hbody, hgap'⟩ : '\n' ∉ body ∧ '\n' ∉ gap := by simpa using hnewline
  have hstart : Markup.startsWith isIndent body = false := by
    obtain ⟨u, rfl⟩ := hmarker
    rfl
  have hround : Round n ([] ++ (body ++ (gap ++ brk))) next (some ⟨.line, n + 0, body⟩) :=
    .line (by simp) hstart (hmarker.ne_nil (by decide)) hbody htrimmed (.inl rfl) ⟨hmarker, hbody⟩
      hgap hgap' hbrk
  simpa using hround

/-- A source of line comments, one on each line. -/
theorem exists_cuts_unlines (n : Nat) {raws : List Text} (h : ∀ raw ∈ raws, Comment.IsLine raw)
    (hne : raws ≠ []) :
    ∃ ps, Cuts n (Text.unlines raws) ps ∧ ps.map (·.text) = raws.map Text.trimEnd ∧
      ∀ p ∈ ps, p.form = .line := by
  induction raws generalizing n with
  | nil => exact absurd rfl hne
  | cons raw raws ih =>
    obtain ⟨hraw, hraws⟩ := List.forall_mem_cons.1 h
    by_cases hlast : raws = []
    · subst hlast
      refine ⟨[⟨.line, n, Text.trimEnd raw⟩], ?_, rfl, by simp⟩
      simpa using Cuts.round (Round.of_isLine n hraw .finish) (.finish _)
    · obtain ⟨ps, hcuts, htexts, hforms⟩ := ih (n + Text.size (raw ++ ['\n'])) hraws hlast
      refine ⟨⟨.line, n, Text.trimEnd raw⟩ :: ps, ?_, by simp [htexts], by simpa using hforms⟩
      rw [Text.unlines_cons _ hlast]
      simpa using Cuts.round (Round.of_isLine n hraw (.newline _)) hcuts

end Piece

theorem Split.ofSource_unlines {raws : List Text} (h : ∀ raw ∈ raws, Comment.IsLine raw)
    (hne : raws ≠ []) :
    (ofSource (Text.unlines raws)).comments = raws.map Text.trimEnd ∧
      (ofSource (Text.unlines raws)).issues = [] := by
  obtain ⟨ps, hcuts, htexts, hforms⟩ := Piece.exists_cuts_unlines 0 h hne
  have hps : (ofSource (Text.unlines raws)).pieces = ps := Piece.cuts_iff.1 hcuts
  rw [comments, issues, hps]
  refine ⟨htexts, List.filterMap_eq_nil_iff.2 fun p hp => ?_⟩
  rw [Piece.issue?, hforms p hp]

namespace Comment

/-- A text as line comments, one for each line. -/
def lineComments (t : Text) : List Text := (Text.lines t).map ("// ".toList ++ ·)

theorem isLine_of_mem_lineComments {t raw : Text} (h : raw ∈ lineComments t) : IsLine raw := by
  obtain ⟨l, hl, rfl⟩ := List.mem_map.1 h
  have hnewline := Text.newline_not_mem_of_mem_lines hl
  exact ⟨⟨' ' :: l, rfl⟩, by simp [hnewline]⟩

theorem body_lineComment (l : Text) : body ("// ".toList ++ l) = l := rfl

theorem body_trimEnd_lineComment (l : Text) :
    body (Text.trimEnd ("// ".toList ++ l)) = Text.trimEnd l := by
  by_cases hl : Text.White l
  · have hmarker : Text.trimEnd ("// ".toList ++ l) = lineMarker := by
      rw [Text.trimEnd_append hl]
      decide
    rw [hmarker, Text.trimEnd_eq_nil_iff.2 hl]
    rfl
  · rw [Text.trimEnd_append_of_not_white _ hl, body_lineComment]

/-- Comments of which each holds one line. -/
theorem normalize_map {f : Text → Text} {ls : List Text} (hnewline : ∀ l ∈ ls, '\n' ∉ l)
    (hf : ∀ l ∈ ls, body (f l) = l) : normalize (ls.map f) = joinLines false false ls := by
  have hlines : (ls.map f).flatMap (fun raw => Text.lines (body raw)) = ls := by
    induction ls with
    | nil => rfl
    | cons l ls ih =>
      obtain ⟨hl, hls⟩ := List.forall_mem_cons.1 hnewline
      obtain ⟨hfl, hfls⟩ := List.forall_mem_cons.1 hf
      rw [List.map_cons, List.flatMap_cons, hfl, Text.lines_of_newline_not_mem hl, ih hls hfls]
      rfl
  rw [normalize, hlines]

theorem split_lineComments (t : Text) :
    (Split.ofSource (Text.unlines (lineComments t))).comments = (lineComments t).map Text.trimEnd ∧
      (Split.ofSource (Text.unlines (lineComments t))).issues = [] := by
  refine Split.ofSource_unlines (fun raw => isLine_of_mem_lineComments) ?_
  simpa [lineComments] using Text.lines_ne_nil t

section
variable {t : Text} (h : Text.IsNormal t)
include h

theorem normalize_lineComments : normalize (lineComments t) = t := by
  rw [lineComments, normalize_map (fun l => Text.newline_not_mem_of_mem_lines)
    fun l _ => body_lineComment l]
  exact h.joinLines_lines

theorem normalize_split_lineComments :
    normalize (Split.ofSource (Text.unlines (lineComments t))).comments = t := by
  rw [(split_lineComments t).1, lineComments, List.map_map,
    normalize_map (fun l => Text.newline_not_mem_of_mem_lines)]
  · exact h.joinLines_lines
  · intro l hl
    rw [Function.comp_apply, body_trimEnd_lineComment]
    exact Text.trimmed_iff.1 (h.trimmed l hl)

end

theorem toHtml_congr {a b : List Text} (h : normalize a = normalize b) : toHtml a = toHtml b := by
  rw [toHtml, toHtml, toTree, toTree, h]

/-- The normal texts are those that normalizing gives. They can be written as line comments, in a list
or in a source, and are given back. -/
theorem normalize_recomment :
    (∀ comments, Text.IsNormal (normalize comments)) ∧
    (∀ t, Text.IsNormal t → (Split.ofSource (Text.unlines (lineComments t))).issues = [] ∧
      normalize (Split.ofSource (Text.unlines (lineComments t))).comments = t ∧
      normalize (lineComments t) = t) ∧
    (∀ t, Text.IsNormal t ↔ ∃ comments, normalize comments = t) ∧
    ∀ comments,
      normalize (Split.ofSource (Text.unlines (lineComments (normalize comments)))).comments =
        normalize comments ∧
      toHtml (Split.ofSource (Text.unlines (lineComments (normalize comments)))).comments =
        toHtml comments := by
  refine ⟨isNormal_normalize, fun t ht => ?_, fun t => ?_, fun comments => ?_⟩
  · exact ⟨(split_lineComments t).2, normalize_split_lineComments ht, normalize_lineComments ht⟩
  · constructor
    · intro ht
      exact ⟨lineComments t, normalize_lineComments ht⟩
    · rintro ⟨comments, rfl⟩
      exact isNormal_normalize comments
  · have hnormal := normalize_split_lineComments (isNormal_normalize comments)
    exact ⟨hnormal, toHtml_congr hnormal⟩

theorem normalize_recomment_markers :
    Text.IsNormal "// a\n  /* b\n\n\u00a0c\r*/ d".toList ∧
      normalize (Split.ofSource
        (Text.unlines (lineComments "// a\n  /* b\n\n\u00a0c\r*/ d".toList))).comments =
        "// a\n  /* b\n\n\u00a0c\r*/ d".toList :=
  have h : Text.IsNormal "// a\n  /* b\n\n\u00a0c\r*/ d".toList := by decide
  ⟨h, (normalize_recomment.2.1 _ h).2.1⟩

end Comment

end DocComment
