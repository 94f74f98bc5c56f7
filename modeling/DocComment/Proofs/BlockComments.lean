import DocComment.Proofs.InlineSource
import DocComment.Proofs.LineComments

/-!
# A text as a block comment

`Comment.blockComment indent last t` is the text `t` as a block comment, with the delimiters on lines
of their own and `indent` in front of every line that is not empty. If some line of `t` is not
indented, the common indentation of the block is `indent`, and taking it away leaves the lines as they
were (`Text.reindent_padded`). So a normal text means the same as a block comment and as line comments
(`Comment.normalize_blockComment`).

The block comment has one closing delimiter if `t` has none: a delimiter lies on one line, and not in
the indentation (`Text.infix_of_infix_unlines_pad`).
-/

namespace DocComment

namespace Text

/-- The line behind an indentation; an empty line stays empty. -/
def pad (indent line : Text) : Text := if line = [] then [] else indent ++ line

@[simp] theorem pad_nil (indent : Text) : pad indent [] = [] := rfl

theorem pad_of_ne_nil (indent : Text) {line : Text} (h : line ≠ []) :
    pad indent line = indent ++ line := if_neg h

theorem unlines_concat {ls : List Text} (h : ls ≠ []) (l : Text) :
    unlines (ls ++ [l]) = unlines ls ++ '\n' :: l := by
  induction ls with
  | nil => exact absurd rfl h
  | cons m ls ih =>
    by_cases hls : ls = []
    · subst hls
      rw [List.singleton_append, unlines_cons _ (List.cons_ne_nil _ _), unlines_singleton,
        unlines_singleton]
    · rw [List.cons_append, unlines_cons _ (by simp), ih hls, unlines_cons _ hls, List.append_assoc]
      rfl

/-- The lines of a block comment whose delimiters stand on lines of their own. -/
theorem lines_unlines_framed {ls : List Text} {l : Text} (hls : ∀ m ∈ ls, '\n' ∉ m) (hl : '\n' ∉ l) :
    lines (unlines ([] :: (ls ++ [l]))) = [] :: (ls ++ [l]) := by
  refine lines_unlines (List.forall_mem_cons.2 ⟨List.not_mem_nil, ?_⟩) (List.cons_ne_nil _ _)
  exact List.forall_mem_append.2 ⟨hls, by simpa using hl⟩

/-! ### Taking an indentation away -/

theorem indentation_append {indent : Text} (h : ∀ c ∈ indent, isIndent c = true) (line : Text) :
    indentation (indent ++ line) = indent.length + indentation line := by
  rw [indentation, List.takeWhile_append_of_pos h, List.length_append, indentation]

theorem all_isBlank {t : Text} (h : ∀ c ∈ t, isIndent c = true) : t.all isBlank = true := by
  refine List.all_eq_true.2 fun c hc => ?_
  rw [isBlank, h c hc, Bool.true_or]

theorem Trimmed.all_isBlank_append {line : Text} (h : Trimmed line) (hne : line ≠ [])
    (indent : Text) : (indent ++ line).all isBlank = false := by
  rw [← Bool.not_eq_true, List.all_eq_true]
  intro hblank
  refine (h.append indent hne).not_white (by simp [hne]) fun c hc => ?_
  exact isWhite_of_isBlank (hblank c hc)

@[simp] theorem outdent_nil (n : Nat) : outdent n [] = [] := by simp [outdent]

theorem outdent_append {indent : Text} (h : ∀ c ∈ indent, isIndent c = true) {line : Text}
    (hne : line ≠ []) : outdent indent.length (indent ++ line) = line := by
  have hlt : indent.length < (indent ++ line).length := by
    have hpos := List.length_pos_iff.2 hne
    rw [List.length_append]
    omega
  rw [outdent, List.take_left, List.drop_left, if_pos ⟨hlt, all_isBlank h⟩]

theorem outdent_pad {indent : Text} (h : ∀ c ∈ indent, isIndent c = true) (line : Text) :
    outdent indent.length (pad indent line) = line := by
  by_cases hline : line = []
  · rw [hline, pad_nil, outdent_nil]
  · rw [pad_of_ne_nil indent hline, outdent_append h hline]

theorem outdent_suffix (n : Nat) (line : Text) : outdent n line <:+ line := by
  rw [outdent]
  split
  · exact List.drop_suffix n line
  · exact List.suffix_rfl

/-- The common indentation is the least one of the lines that count. -/
theorem commonIndentation?_eq_some_iff {ls : List Text} {n : Nat} :
    commonIndentation? ls = some n ↔
      (∃ l ∈ ls, l.all isBlank = false ∧ 0 < indentation l ∧ indentation l = n) ∧
        ∀ l ∈ ls, l.all isBlank = false → 0 < indentation l → n ≤ indentation l := by
  have hmem : ∀ m, m ∈ ((ls.filter fun line => !line.all isBlank).map indentation).filter (0 < ·) ↔
      ∃ l ∈ ls, l.all isBlank = false ∧ 0 < indentation l ∧ indentation l = m := by
    intro m
    simp only [List.mem_filter, List.mem_map, Bool.not_eq_true', decide_eq_true_eq]
    constructor
    · rintro ⟨⟨l, ⟨hl, hblank⟩, rfl⟩, hpos⟩
      exact ⟨l, hl, hblank, hpos, rfl⟩
    · rintro ⟨l, hl, hblank, hpos, rfl⟩
      exact ⟨⟨l, ⟨hl, hblank⟩, rfl⟩, hpos⟩
  rw [commonIndentation?, List.min?_eq_some_iff, hmem]
  refine and_congr_right fun _ => ?_
  constructor
  · intro h l hl hblank hpos
    exact h _ ((hmem _).2 ⟨l, hl, hblank, hpos, rfl⟩)
  · intro h m hm
    obtain ⟨l, hl, hblank, hpos, rfl⟩ := (hmem m).1 hm
    exact h l hl hblank hpos

section
variable {indent last : Text} {ls : List Text} (hindent : ∀ c ∈ indent, isIndent c = true)
  (hlast : ∀ c ∈ last, isIndent c = true)
include hindent hlast

theorem commonIndentation?_padded (hne : indent ≠ []) (htrimmed : ∀ l ∈ ls, Trimmed l)
    (hline : ∃ l ∈ ls, l ≠ [] ∧ Markup.startsWith isIndent l = false) :
    commonIndentation? ([] :: (ls.map (pad indent) ++ [last])) = some indent.length := by
  have hpos := List.length_pos_iff.2 hne
  rw [commonIndentation?_eq_some_iff]
  constructor
  · obtain ⟨l, hl, hlne, hstart⟩ := hline
    have hzero : indentation l = 0 := by
      cases l with
      | nil => rfl
      | cons c l =>
        have hc : isIndent c = false := hstart
        simp [indentation, hc]
    have hmem : pad indent l ∈ ls.map (pad indent) ++ [last] :=
      List.mem_append_left _ (List.mem_map_of_mem hl)
    refine ⟨pad indent l, List.mem_cons_of_mem _ hmem, ?_⟩
    rw [pad_of_ne_nil indent hlne, indentation_append hindent, hzero]
    exact ⟨(htrimmed l hl).all_isBlank_append hlne indent, hpos, rfl⟩
  · intro m hm hblank _
    rcases List.mem_cons.1 hm with rfl | hm
    · cases hblank
    rcases List.mem_append.1 hm with hm | hm
    · obtain ⟨l, hl, rfl⟩ := List.mem_map.1 hm
      by_cases hlne : l = []
      · rw [hlne, pad_nil] at hblank
        cases hblank
      · rw [pad_of_ne_nil indent hlne, indentation_append hindent]
        exact Nat.le_add_right _ _
    · obtain rfl := List.mem_singleton.1 hm
      rw [all_isBlank hlast] at hblank
      cases hblank

/-- Taking the common indentation away undoes the padding. -/
theorem reindent_padded (hne : indent ≠ []) (htrimmed : ∀ l ∈ ls, Trimmed l)
    (hline : ∃ l ∈ ls, l ≠ [] ∧ Markup.startsWith isIndent l = false)
    (hnewline : ∀ l ∈ ls, '\n' ∉ l) :
    reindent (unlines ([] :: (ls.map (pad indent) ++ [last]))) =
      unlines ([] :: (ls ++ [outdent indent.length last])) := by
  have hindent' : '\n' ∉ indent := not_mem_of_isIndent hindent rfl
  have hlast' : '\n' ∉ last := not_mem_of_isIndent hlast rfl
  have hpadded : ∀ m ∈ ls.map (pad indent), '\n' ∉ m := by
    refine List.forall_mem_map.2 fun l hl => ?_
    rw [pad]
    split
    · exact List.not_mem_nil
    · simp [hindent', hnewline l hl]
  have hmap : (ls.map (pad indent)).map (outdent indent.length) = ls := by
    rw [List.map_map]
    exact List.map_id'' (outdent_pad hindent) ls
  rw [reindent, lines_unlines_framed hpadded hlast',
    commonIndentation?_padded hindent hlast hne htrimmed hline]
  simp only [List.map_cons, List.map_append, hmap, outdent_nil, List.map_nil]

end

/-! ### Delimiters in a text -/

/-- What does not have a character lies on one side of it. -/
theorem infix_or_of_not_mem {sep t u : Text} {c : Char} (hc : c ∉ sep) (h : sep <:+: t ++ c :: u) :
    sep <:+: t ∨ sep <:+: u := by
  obtain ⟨before, after, heq⟩ := h
  rcases exists_of_append_eq heq with ⟨v, hv⟩ | ⟨v, rfl, -⟩
  · rcases exists_of_append_eq hv with ⟨w, rfl⟩ | ⟨w, -, rfl⟩
    · exact .inr ⟨w, after, by simpa using heq⟩
    · exact absurd (by simp) hc
  · exact .inl ⟨before, v, rfl⟩

theorem infix_of_infix_append {sep t u : Text} (hsep : ∀ c ∈ t, c ∉ sep) (h : sep <:+: t ++ u) :
    sep <:+: u := by
  induction t with
  | nil => exact h
  | cons c t ih =>
    obtain ⟨hc, ht⟩ := List.forall_mem_cons.1 hsep
    rcases infix_or_of_not_mem (t := []) hc h with hnil | htail
    · exact hnil.trans List.nil_infix
    · exact ih ht htail

theorem infix_of_infix_unlines_pad {sep indent : Text} {ls : List Text} (hnewline : '\n' ∉ sep)
    (hindent : ∀ c ∈ indent, c ∉ sep) (h : sep <:+: unlines (ls.map (pad indent))) :
    sep <:+: unlines ls := by
  have hpad : ∀ l, sep <:+: pad indent l → sep <:+: l := by
    intro l hl
    rw [pad] at hl
    split at hl
    · exact hl.trans List.nil_infix
    · exact infix_of_infix_append hindent hl
  induction ls with
  | nil => exact h
  | cons l ls ih =>
    by_cases hls : ls = []
    · subst hls
      rw [List.map_singleton, unlines_singleton] at h
      rw [unlines_singleton]
      exact hpad l h
    · rw [List.map_cons, unlines_cons _ (by simpa using hls)] at h
      rw [unlines_cons _ hls]
      rcases infix_or_of_not_mem hnewline h with hl | hrest
      · exact (hpad l hl).trans (List.prefix_append _ _).isInfix
      · exact (ih hrest).trans ⟨l ++ ['\n'], [], by simp⟩

end Text

namespace Comment

/-- A text as a block comment, with the delimiters on lines of their own: the lines that are not
empty are behind `indent`, and the closing delimiter is behind `last`. -/
def blockComment (indent last t : Text) : Text :=
  blockOpen ++
    ('\n' :: (Text.unlines ((Text.lines t).map (Text.pad indent)) ++ '\n' :: last) ++ blockClose)

theorem blockComment_eq (indent last t : Text) :
    blockComment indent last t = blockOpen ++
      (Text.unlines ([] :: ((Text.lines t).map (Text.pad indent) ++ [last])) ++ blockClose) := by
  rw [Text.unlines_cons _ (by simp), Text.unlines_concat (by simpa using Text.lines_ne_nil t)]
  rfl

/-- A white line at the end is left out. -/
theorem joinLines_append_white (started blank : Bool) (ls : List Text) {l : Text}
    (h : Text.White l) : joinLines started blank (ls ++ [l]) = joinLines started blank ls := by
  have hl := Text.trimEnd_eq_nil_iff.2 h
  induction ls generalizing started blank with
  | nil => exact joinLines_empty started blank hl []
  | cons m ls ih =>
    by_cases hm : Text.trimEnd m = []
    · rw [List.cons_append, joinLines_empty _ _ hm, joinLines_empty _ _ hm, ih]
    · rw [List.cons_append, joinLines_cons _ _ hm, joinLines_cons _ _ hm, ih]

section
variable {indent last t : Text} (hindent : ∀ c ∈ indent, isIndent c = true)
  (hlast : ∀ c ∈ last, isIndent c = true)
include hindent hlast

/-- Nothing that is added to a text closes the block early. -/
theorem isBlock_blockComment (hclose : ¬ blockClose <:+: t) :
    IsBlock (blockComment indent last t) := by
  have hmarks : ∀ c ∈ blockClose, isIndent c = false := by simp [blockClose, isIndent]
  have hsep : ∀ u : Text, (∀ c ∈ u, isIndent c = true) → ∀ c ∈ u, c ∉ blockClose := by
    intro u hu c hc hmem
    exact Text.not_mem_of_isIndent hu (hmarks c hmem) hc
  have hnewline : '\n' ∉ blockClose := by decide
  refine isBlock_iff.2 ⟨_, rfl, fun hinfix => ?_⟩
  -- Only the last character of the closing delimiter is left out.
  rw [List.dropLast_append_of_ne_nil (by decide), List.cons_append, List.append_assoc,
    List.cons_append] at hinfix
  rcases Text.infix_or_of_not_mem (t := []) hnewline hinfix with hnil | hinfix
  · exact absurd hnil (by decide)
  rcases Text.infix_or_of_not_mem hnewline hinfix with htext | hend
  · refine hclose ?_
    rw [← Text.unlines_lines t]
    exact Text.infix_of_infix_unlines_pad hnewline (hsep indent hindent) htext
  · exact absurd (Text.infix_of_infix_append (hsep last hlast) hend) (by decide)

variable (ht : Text.IsNormal t) (hne : indent ≠ [])
  (hline : ∃ l ∈ Text.lines t, l ≠ [] ∧ Markup.startsWith isIndent l = false)
include ht hne hline

theorem body_blockComment : body (blockComment indent last t) =
    Text.unlines ([] :: (Text.lines t ++ [Text.outdent indent.length last])) := by
  -- The first line of the block is empty, so there is no space to drop.
  have hspace : ∀ ls : List Text, ls ≠ [] →
      dropSpace (Text.unlines ([] :: ls)) = Text.unlines ([] :: ls) := by
    intro ls hls
    rw [Text.unlines_cons _ hls]
    rfl
  have hbody : ∀ u : Text, body (blockOpen ++ u) =
      dropSpace (Text.reindent (dropSpace (Text.dropEnd blockClose u))) := fun _ => rfl
  rw [blockComment_eq, hbody, Text.dropEnd_append, hspace _ (by simp),
    Text.reindent_padded hindent hlast hne ht.trimmed hline
      (fun l => Text.newline_not_mem_of_mem_lines), hspace _ (by simp)]

theorem normalize_blockComment_eq : normalize [blockComment indent last t] = t := by
  have hrest : ∀ c ∈ Text.outdent indent.length last, isIndent c = true := fun c hc =>
    hlast c ((Text.outdent_suffix indent.length last).subset hc)
  have hnewline : '\n' ∉ Text.outdent indent.length last := Text.not_mem_of_isIndent hrest rfl
  have hlines : Text.lines (body (blockComment indent last t)) =
      [] :: (Text.lines t ++ [Text.outdent indent.length last]) := by
    rw [body_blockComment hindent hlast ht hne hline]
    exact Text.lines_unlines_framed (fun l => Text.newline_not_mem_of_mem_lines) hnewline
  rw [normalize, List.flatMap_singleton, hlines, joinLines_empty _ _ rfl,
    joinLines_append_white _ _ _ (Text.white_of_isIndent hrest)]
  exact ht.joinLines_lines

end

end Comment

theorem Split.ofSource_of_isBlock {t : Text} (h : Comment.IsBlock t) :
    (ofSource t).comments = [t] ∧ (ofSource t).issues = [] := by
  have hround : Piece.Round 0 ([] ++ t) [] (some ⟨.block, 0 + 0, t⟩) := .block (by simp) h
  have hps : (ofSource t).pieces = [⟨.block, 0, t⟩] := by
    refine Piece.cuts_iff.1 ?_
    simpa using Piece.Cuts.round hround (.finish _)
  rw [comments, issues, hps]
  exact ⟨rfl, rfl⟩

namespace Comment

/-- A block comment means the same as the line comments of its text, whatever its lines and its
closing delimiter are indented by. -/
theorem normalize_blockComment (t indent last : Text) (ht : Text.IsNormal t)
    (hline : ∃ l ∈ Text.lines t, l ≠ [] ∧ Markup.startsWith isIndent l = false)
    (hne : indent ≠ []) (hindent : ∀ c ∈ indent, isIndent c = true)
    (hlast : ∀ c ∈ last, isIndent c = true) :
    normalize [blockComment indent last t] = t ∧
      normalize [blockComment indent last t] = normalize (lineComments t) ∧
      toHtml [blockComment indent last t] = toHtml (lineComments t) ∧
      (¬ blockClose <:+: t →
        (Split.ofSource (blockComment indent last t)).comments = [blockComment indent last t] ∧
        (Split.ofSource (blockComment indent last t)).issues = []) := by
  have htext := normalize_blockComment_eq hindent hlast ht hne hline
  have hsame : normalize [blockComment indent last t] = normalize (lineComments t) :=
    htext.trans (normalize_lineComments ht).symm
  refine ⟨htext, hsame, toHtml_congr hsame, fun hclose => ?_⟩
  exact Split.ofSource_of_isBlock (isBlock_blockComment hindent hlast hclose)

theorem normalize_blockComment_relative :
    Text.IsNormal "a\n\tb\n\n c".toList ∧
      blockComment "\t ".toList "  ".toList "a\n\tb\n\n c".toList =
        "/*\n\t a\n\t \tb\n\n\t  c\n  */".toList ∧
      normalize ["/*\n\t a\n\t \tb\n\n\t  c\n  */".toList] = "a\n\tb\n\n c".toList ∧
      (Split.ofSource "/*\n\t a\n\t \tb\n\n\t  c\n  */".toList).issues = [] := by
  have ht : Text.IsNormal "a\n\tb\n\n c".toList := by decide
  have hcomment : blockComment "\t ".toList "  ".toList "a\n\tb\n\n c".toList =
      "/*\n\t a\n\t \tb\n\n\t  c\n  */".toList := by decide
  have h := normalize_blockComment "a\n\tb\n\n c".toList "\t ".toList "  ".toList ht (by decide)
    (by decide) (by simp [isIndent]) (by simp [isIndent])
  have hclose : ¬ blockClose <:+: "a\n\tb\n\n c".toList :=
    (Text.cut?_eq_none_iff (by decide)).1 (by decide)
  rw [hcomment] at h
  exact ⟨ht, hcomment, h.1, (h.2.2.2 hclose).2⟩

end Comment

end DocComment
