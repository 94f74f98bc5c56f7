import DocComment.Proofs.CommonIndentation

/-!
# Lines that end with a carriage return

A source whose lines end with a return and a line feed (`Text.withReturns`) is read like the one
with line feeds alone: it is cut into the same pieces, each one with returns of its own
(`Piece.Cuts.returned`), and the returns do not come through to the normal text
(`Comment.normalize_map_withReturns`).

The returns are seen by no step on its own. Lines with and without a return at the end are related
(`Text.Returned`), and every step keeps the relation, up to lines that are white space both
(`Text.Alike`): such a line can lose the common indentation in one of the two texts only.
-/

namespace DocComment

namespace Text

/-- The text with a return in front of each line feed. -/
def withReturns (t : Text) : Text := t.flatMap fun c => if c = '\n' then ['\r', '\n'] else [c]

theorem withReturns_append (t u : Text) : withReturns (t ++ u) = withReturns t ++ withReturns u :=
  List.flatMap_append

theorem withReturns_newline (t : Text) : withReturns ('\n' :: t) = '\r' :: '\n' :: withReturns t :=
  rfl

theorem withReturns_cons {c : Char} (h : c ≠ '\n') (t : Text) :
    withReturns (c :: t) = c :: withReturns t := by
  rw [withReturns, List.flatMap_cons, if_neg h]
  rfl

theorem withReturns_of_not_mem {t : Text} (h : '\n' ∉ t) : withReturns t = t := by
  induction t with
  | nil => rfl
  | cons c t ih =>
    obtain ⟨hc, ht⟩ := not_or.1 (List.mem_cons.not.1 h)
    rw [withReturns_cons (Ne.symm hc), ih ht]

/-! ### Delimiters -/

section
variable {sep : Text}

theorem not_isPrefix_of_isNewline (hsep : ∀ c ∈ sep, isNewline c = false) (hne : sep ≠ [])
    {c : Char} (hc : isNewline c = true) (t : Text) : ¬ sep <+: c :: t := by
  intro h
  obtain ⟨d, sep, rfl⟩ := List.exists_cons_of_ne_nil hne
  obtain ⟨rfl, -⟩ := List.cons_prefix_cons.1 h
  rw [hsep d List.mem_cons_self] at hc
  cases hc

/-- The returns stand in front of line feeds, so they neither hide a delimiter nor make one. -/
theorem isPrefix_withReturns_iff (hsep : ∀ c ∈ sep, isNewline c = false) {t : Text} :
    sep <+: withReturns t ↔ sep <+: t := by
  induction sep generalizing t with
  | nil => simp
  | cons d sep ih =>
    cases t with
    | nil => rfl
    | cons c t =>
      by_cases hc : c = '\n'
      · have hnot : ∀ c u, isNewline c = true → ¬ d :: sep <+: c :: u := fun c u hc =>
          not_isPrefix_of_isNewline hsep (List.cons_ne_nil d sep) hc u
        subst hc
        exact iff_of_false (hnot '\r' _ rfl) (hnot '\n' t rfl)
      · rw [withReturns_cons hc, List.cons_prefix_cons, List.cons_prefix_cons,
          ih (List.forall_mem_cons.1 hsep).2]

theorem isInfix_withReturns_iff (hsep : ∀ c ∈ sep, isNewline c = false) (hne : sep ≠ [])
    {t : Text} : sep <:+: withReturns t ↔ sep <:+: t := by
  induction t with
  | nil => rfl
  | cons c t ih =>
    by_cases hc : c = '\n'
    · have hnot : ∀ c u, isNewline c = true → ¬ sep <+: c :: u := fun c u hc =>
        not_isPrefix_of_isNewline hsep hne hc u
      subst hc
      rw [withReturns_newline, List.infix_cons_iff, List.infix_cons_iff, List.infix_cons_iff, ih,
        or_iff_right (hnot '\r' _ rfl), or_iff_right (hnot '\n' _ rfl),
        or_iff_right (hnot '\n' _ rfl)]
    · rw [withReturns_cons hc, List.infix_cons_iff, List.infix_cons_iff, ih, ← withReturns_cons hc,
        isPrefix_withReturns_iff hsep]

theorem isSuffix_withReturns_iff (hsep : ∀ c ∈ sep, isNewline c = false) {t : Text} :
    sep <:+ withReturns t ↔ sep <:+ t := by
  induction t with
  | nil => rfl
  | cons c t ih =>
    have hnot : ∀ {c : Char} {u : Text}, isNewline c = true → sep ≠ c :: u := by
      rintro c u hc rfl
      rw [hsep c List.mem_cons_self] at hc
      cases hc
    by_cases hc : c = '\n'
    · subst hc
      rw [withReturns_newline, List.suffix_cons_iff, List.suffix_cons_iff, List.suffix_cons_iff, ih,
        or_iff_right (hnot rfl), or_iff_right (hnot rfl), or_iff_right (hnot rfl)]
    · have hwhole : sep = c :: withReturns t ↔ sep = c :: t := by
        by_cases hmem : '\n' ∈ t
        · have hmem' : '\n' ∈ withReturns t := List.mem_flatMap.2 ⟨'\n', hmem, by simp⟩
          refine iff_of_false ?_ ?_ <;> rintro rfl
          · exact absurd (hsep '\n' (List.mem_cons_of_mem c hmem')) (by decide)
          · exact absurd (hsep '\n' (List.mem_cons_of_mem c hmem)) (by decide)
        · rw [withReturns_of_not_mem hmem]
      rw [withReturns_cons hc, List.suffix_cons_iff, List.suffix_cons_iff, ih, hwhole]

theorem dropEnd_of_not_isSuffix {t : Text} (h : ¬ sep <:+ t) : dropEnd sep t = t := by
  cases hs : sep.isSuffixOf? t with
  | none =>
    rw [dropEnd, hs]
    rfl
  | some u => exact absurd ⟨u, List.isSuffixOf?_eq_some_iff_append_eq.1 hs⟩ h

theorem dropEnd_withReturns (hsep : ∀ c ∈ sep, isNewline c = false) (t : Text) :
    dropEnd sep (withReturns t) = withReturns (dropEnd sep t) := by
  by_cases h : sep <:+ t
  · obtain ⟨u, rfl⟩ := h
    have hnewline : '\n' ∉ sep := fun hmem => absurd (hsep '\n' hmem) (by decide)
    rw [withReturns_append, withReturns_of_not_mem hnewline, dropEnd_append, dropEnd_append]
  · rw [dropEnd_of_not_isSuffix h,
      dropEnd_of_not_isSuffix ((isSuffix_withReturns_iff hsep).not.2 h)]

end

/-! ### Lines -/

/-- The same line, or the line with a return behind it. -/
def Returned (l m : Text) : Prop := m = l ∨ m = l ++ ['\r']

/-- Lines that are the same up to a return, or white space both. -/
def Alike (l m : Text) : Prop := Returned l m ∨ White l ∧ White m

theorem Returned.cons {l m : Text} (c : Char) (h : Returned l m) : Returned (c :: l) (c :: m) :=
  h.imp (congrArg (c :: ·)) (congrArg (c :: ·))

theorem Returned.all_isBlank {l m : Text} (h : Returned l m) : m.all isBlank = l.all isBlank := by
  rcases h with rfl | rfl
  · rfl
  · rw [List.all_append, show ['\r'].all isBlank = true from rfl, Bool.and_true]

theorem Returned.indentation {l m : Text} (h : Returned l m) : indentation m = indentation l := by
  rcases h with rfl | rfl
  · rfl
  · have hstop : ['\r'].takeWhile isIndent = [] := rfl
    rw [Text.indentation, Text.indentation, List.takeWhile_append, hstop, List.append_nil]
    split
    · next hall => exact hall.symm
    · rfl

theorem Returned.outdent {l m : Text} (h : Returned l m) (n : Nat) :
    Alike (outdent n l) (outdent n m) := by
  rcases h with rfl | rfl
  · exact .inl (.inl rfl)
  · have hlength : (l ++ ['\r']).length = l.length + 1 := List.length_append
    rw [Text.outdent, Text.outdent, hlength]
    rcases Nat.lt_trichotomy n l.length with hlt | rfl | hlt
    · rw [List.take_append_of_le_length hlt.le, List.drop_append_of_le_length hlt.le]
      by_cases hblank : (l.take n).all isBlank = true
      · rw [if_pos ⟨hlt, hblank⟩, if_pos ⟨Nat.lt_succ_of_lt hlt, hblank⟩]
        exact .inl (.inr rfl)
      · rw [if_neg fun h => hblank h.2, if_neg fun h => hblank h.2]
        exact .inl (.inr rfl)
    · -- a line of the common indentation alone is long enough with the return only
      rw [if_neg fun h => Nat.lt_irrefl _ h.1, List.take_left, List.drop_left]
      split
      · next hblank =>
        refine .inr ⟨fun c hc => isWhite_of_isBlank (List.all_eq_true.1 hblank.2 c hc), ?_⟩
        decide
      · exact .inl (.inr rfl)
    · rw [if_neg fun h => Nat.lt_asymm h.1 hlt,
        if_neg fun h => Nat.not_le_of_lt hlt (Nat.le_of_lt_succ h.1)]
      exact .inl (.inr rfl)

theorem Alike.trimEnd {l m : Text} (h : Alike l m) : trimEnd m = trimEnd l := by
  rcases h with (rfl | rfl) | ⟨hl, hm⟩
  · rfl
  · exact trimEnd_append (by decide)
  · rw [trimEnd_eq_nil_iff.2 hl, trimEnd_eq_nil_iff.2 hm]

theorem map_trimEnd_of_alike {ls ms : List Text} (h : List.Forall₂ Alike ls ms) :
    ms.map Text.trimEnd = ls.map Text.trimEnd := by
  induction h with
  | nil => rfl
  | cons hl _ ih => rw [List.map_cons, List.map_cons, hl.trimEnd, ih]

theorem forall₂_modifyHead {R S : Text → Text → Prop} {f : Text → Text} {ls ms : List Text}
    (h : List.Forall₂ R ls ms) (hf : ∀ l m, R l m → S (f l) (f m)) (hle : ∀ l m, R l m → S l m) :
    List.Forall₂ S (ls.modifyHead f) (ms.modifyHead f) := by
  cases h with
  | nil => exact .nil
  | cons hl hls => exact .cons (hf _ _ hl) (hls.imp hle)

theorem returned_lines (t : Text) : List.Forall₂ Returned (lines t) (lines (withReturns t)) := by
  induction t with
  | nil => exact .cons (.inl rfl) .nil
  | cons c t ih =>
    by_cases hc : c = '\n'
    · subst hc
      rw [withReturns_newline, lines_newline, lines_cons (c := '\r') (by decide), lines_newline]
      exact .cons (.inr rfl) ih
    · rw [withReturns_cons hc, lines_cons hc, lines_cons hc]
      exact forall₂_modifyHead ih (fun l m h => h.cons c) fun l m h => h

theorem commonIndentation?_returned {ls ms : List Text} (h : List.Forall₂ Returned ls ms) :
    commonIndentation? ms = commonIndentation? ls := by
  have hmap : (ms.filter fun line => !line.all isBlank).map indentation =
      (ls.filter fun line => !line.all isBlank).map indentation := by
    induction h with
    | nil => rfl
    | cons hl _ ih =>
      rw [List.filter_cons, List.filter_cons, hl.all_isBlank]
      split
      · rw [List.map_cons, List.map_cons, hl.indentation, ih]
      · exact ih
  rw [commonIndentation?, commonIndentation?, hmap]

theorem alike_reindent (t : Text) :
    List.Forall₂ Alike (lines (reindent t)) (lines (reindent (withReturns t))) := by
  have hlines := returned_lines t
  rw [lines_reindent, lines_reindent, commonIndentation?_returned hlines]
  split
  · exact hlines.imp fun l m h => .inl h
  · next n _ =>
    rw [List.forall₂_map_left_iff, List.forall₂_map_right_iff]
    exact hlines.imp fun l m h => h.outdent n

end Text

/-! ### Comments -/

namespace Comment
open Text (withReturns Alike lines)

theorem dropSpace_cons {c : Char} (h : c ≠ ' ') (t : Text) : dropSpace (c :: t) = c :: t := by
  simp [dropSpace, Text.dropStart, List.isPrefixOf?, Ne.symm h]

theorem dropSpace_suffix (t : Text) : dropSpace t <:+ t := by
  cases t with
  | nil => exact List.suffix_rfl
  | cons c t =>
    by_cases hc : c = ' '
    · rw [hc]
      exact List.suffix_cons ' ' t
    · simp [dropSpace_cons hc]

theorem dropSpace_withReturns (t : Text) :
    dropSpace (withReturns t) = withReturns (dropSpace t) := by
  cases t with
  | nil => rfl
  | cons c t =>
    by_cases hc : c = ' '
    · rw [hc]
      rfl
    · rw [dropSpace_cons hc]
      by_cases hc' : c = '\n'
      · rw [hc']
        rfl
      · rw [Text.withReturns_cons hc', dropSpace_cons hc]

theorem lines_dropSpace (t : Text) : lines (dropSpace t) = (lines t).modifyHead dropSpace := by
  cases t with
  | nil => rfl
  | cons c t =>
    by_cases hc : c = '\n'
    · rw [hc, Text.lines_newline]
      exact Text.lines_newline t
    · obtain ⟨l, ls, hls⟩ := List.exists_cons_of_ne_nil (Text.lines_ne_nil t)
      rw [Text.lines_cons hc, hls, List.modifyHead_cons, List.modifyHead_cons]
      by_cases hspace : c = ' '
      · rw [hspace]
        exact hls
      · rw [dropSpace_cons hspace, dropSpace_cons hspace, Text.lines_cons hc, hls,
          List.modifyHead_cons]

theorem alike_dropSpace {l m : Text} (h : Alike l m) : Alike (dropSpace l) (dropSpace m) := by
  rcases h with (rfl | rfl) | ⟨hl, hm⟩
  · exact .inl (.inl rfl)
  · refine .inl (.inr ?_)
    cases l with
    | nil => rfl
    | cons c l =>
      by_cases hc : c = ' '
      · rw [hc]
        rfl
      · rw [dropSpace_cons hc]
        exact dropSpace_cons hc _
  · exact .inr ⟨fun c hc => hl c ((dropSpace_suffix l).subset hc),
      fun c hc => hm c ((dropSpace_suffix m).subset hc)⟩

theorem alike_lines_dropSpace {t u : Text} (h : List.Forall₂ Alike (lines t) (lines u)) :
    List.Forall₂ Alike (lines (dropSpace t)) (lines (dropSpace u)) := by
  rw [lines_dropSpace, lines_dropSpace]
  exact Text.forall₂_modifyHead h (fun l m => alike_dropSpace) fun l m h => h

/-- No delimiter has a line break in it. -/
theorem isNewline_of_mem_delimiter {m : Text} (h : m ∈ [lineMarker, blockOpen, blockClose]) :
    ∀ c ∈ m, isNewline c = false := by
  have hall : [lineMarker, blockOpen, blockClose].all (·.all (!isNewline ·)) = true := by decide
  intro c hc
  simpa using List.all_eq_true.1 (List.all_eq_true.1 hall m h) c hc

theorem body_of_isStray {raw : Text} (h : IsStray raw) : body raw = dropSpace raw := by
  rw [body, Text.isPrefixOf?_eq_none_iff.2 h.1, Text.isPrefixOf?_eq_none_iff.2 h.2]

theorem alike_body (raw : Text) :
    List.Forall₂ Alike (lines (body raw)) (lines (body (withReturns raw))) := by
  have hreturned : ∀ t, List.Forall₂ Alike (lines t) (lines (withReturns t)) := fun t =>
    (Text.returned_lines t).imp fun l m h => .inl h
  by_cases hline : lineMarker <+: raw
  · obtain ⟨rest, rfl⟩ := hline
    rw [Text.withReturns_append]
    exact alike_lines_dropSpace (hreturned rest)
  by_cases hblock : blockOpen <+: raw
  · obtain ⟨rest, rfl⟩ := hblock
    have hbody : ∀ u : Text, body (blockOpen ++ u) =
        dropSpace (Text.reindent (dropSpace (Text.dropEnd blockClose u))) := fun _ => rfl
    rw [Text.withReturns_append, show withReturns blockOpen = blockOpen from rfl, hbody, hbody,
      Text.dropEnd_withReturns (isNewline_of_mem_delimiter (by decide)), dropSpace_withReturns]
    exact alike_lines_dropSpace (Text.alike_reindent _)
  · have hnot : ∀ m ∈ [lineMarker, blockOpen, blockClose], ¬ m <+: raw → ¬ m <+: withReturns raw :=
      fun m hm => (Text.isPrefix_withReturns_iff (isNewline_of_mem_delimiter hm)).not.2
    rw [body_of_isStray ⟨hline, hblock⟩,
      body_of_isStray ⟨hnot _ (by decide) hline, hnot _ (by decide) hblock⟩]
    exact alike_lines_dropSpace (hreturned raw)

theorem joinLines_map_trimEnd (started blank : Bool) (ls : List Text) :
    joinLines started blank (ls.map Text.trimEnd) = joinLines started blank ls := by
  induction ls generalizing started blank with
  | nil => rfl
  | cons l ls ih =>
    have htrim : Text.trimEnd (Text.trimEnd l) = Text.trimEnd l :=
      Text.trimmed_iff.1 (Text.trimmed_trimEnd l)
    rw [List.map_cons, joinLines, joinLines, htrim, ih, ih]

/-- Returns in front of the line feeds do not change the normal text. -/
theorem normalize_map_withReturns (comments : List Text) :
    normalize (comments.map withReturns) = normalize comments := by
  have htrim : ∀ raw, (lines (body (withReturns raw))).map Text.trimEnd =
      (lines (body raw)).map Text.trimEnd := fun raw => Text.map_trimEnd_of_alike (alike_body raw)
  rw [normalize, normalize, ← joinLines_map_trimEnd, List.map_flatMap, List.flatMap_map]
  simp only [htrim]
  rw [← List.map_flatMap, joinLines_map_trimEnd]

end Comment

/-! ### Sources -/

namespace Comment
open Text (withReturns)

theorem isInfix_blockClose_withReturns {t : Text} :
    blockClose <:+: withReturns t ↔ blockClose <:+: t :=
  Text.isInfix_withReturns_iff (isNewline_of_mem_delimiter (by decide)) (by decide)

theorem isBlock_withReturns {t : Text} (h : IsBlock t) : IsBlock (withReturns t) := by
  obtain ⟨content, rfl, hfirst⟩ := isBlock_iff.1 h
  have hdropLast : ∀ u : Text, (u ++ blockClose).dropLast = u ++ ['*'] := fun u => by
    rw [List.dropLast_append_of_ne_nil (by decide)]
    rfl
  rw [hdropLast, ← isInfix_blockClose_withReturns, Text.withReturns_append] at hfirst
  refine isBlock_iff.2 ⟨withReturns content, ?_, ?_⟩
  · rw [Text.withReturns_append, Text.withReturns_append]
    rfl
  · rw [hdropLast]
    exact hfirst

theorem isUnclosed_withReturns {t : Text} (h : IsUnclosed t) : IsUnclosed (withReturns t) := by
  obtain ⟨⟨rest, rfl⟩, hclose⟩ := h
  rw [Text.withReturns_append]
  exact ⟨List.prefix_append blockOpen _, isInfix_blockClose_withReturns.not.2 hclose⟩

end Comment

namespace Piece
open Text (withReturns)

/-- The same piece in a source with returns. -/
structure SameAs (p q : Piece) : Prop where
  form : q.form = p.form
  text : q.text = withReturns p.text

theorem LineEnd.returned {brk next : Text} (h : LineEnd brk next) :
    ∃ gap, withReturns brk = gap ++ brk ∧ Text.White gap ∧ '\n' ∉ gap ∧
      LineEnd brk (withReturns next) := by
  cases h with
  | newline next => exact ⟨['\r'], rfl, by decide, by decide, .newline _⟩
  | finish => exact ⟨[], rfl, by decide, by decide, .finish⟩

/-- A round reads the same piece with returns, and leaves the same text behind it. -/
theorem Round.returned {n : Nat} {read next : Text} {p? : Option Piece}
    (h : Round n read next p?) (m : Nat) :
    ∃ q?, Round m (withReturns read) (withReturns next) q? ∧
      List.Forall₂ SameAs p?.toList q?.toList := by
  cases h with
  | @blank gap brk _ hgap hnewline hbrk hne =>
    obtain ⟨gap', hbrk', hgap', hnewline', hend⟩ := hbrk.returned
    refine ⟨none, ?_, .nil⟩
    rw [Text.withReturns_append, Text.withReturns_of_not_mem hnewline, hbrk', ← List.append_assoc]
    exact .blank (hgap.append hgap') (by simp [hnewline, hnewline']) hend (by simp_all)
  | @line form indent body gap brk _ hindent hbody hne hnewline htrimmed hform hadmits hgap hgap'
      hbrk =>
    obtain ⟨ret, hbrk', hret, hnewline', hend⟩ := hbrk.returned
    have hindent' : '\n' ∉ indent := Text.not_mem_of_isIndent hindent rfl
    have hread : withReturns (indent ++ (body ++ (gap ++ brk))) =
        indent ++ (body ++ ((gap ++ ret) ++ brk)) := by
      rw [Text.withReturns_append, Text.withReturns_append, Text.withReturns_append,
        Text.withReturns_of_not_mem hindent', Text.withReturns_of_not_mem hnewline,
        Text.withReturns_of_not_mem hgap', hbrk', List.append_assoc]
    refine ⟨some ⟨form, m + Text.size indent, body⟩, ?_,
      .cons ⟨rfl, (Text.withReturns_of_not_mem hnewline).symm⟩ .nil⟩
    rw [hread]
    exact .line hindent hbody hne hnewline htrimmed hform hadmits (hgap.append hret)
      (by simp [hgap', hnewline']) hend
  | @block indent text _ hindent htext =>
    refine ⟨some ⟨.block, m + Text.size indent, withReturns text⟩, ?_, .cons ⟨rfl, rfl⟩ .nil⟩
    rw [Text.withReturns_append,
      Text.withReturns_of_not_mem (Text.not_mem_of_isIndent hindent rfl)]
    exact .block hindent (Comment.isBlock_withReturns htext)
  | @unclosed indent text hindent htext =>
    refine ⟨some ⟨.unclosed, m + Text.size indent, withReturns text⟩, ?_, .cons ⟨rfl, rfl⟩ .nil⟩
    rw [Text.withReturns_append,
      Text.withReturns_of_not_mem (Text.not_mem_of_isIndent hindent rfl)]
    exact .unclosed hindent (Comment.isUnclosed_withReturns htext)

theorem Cuts.returned {n : Nat} {source : Text} {ps : List Piece} (h : Cuts n source ps)
    (m : Nat) : ∃ qs, Cuts m (withReturns source) qs ∧ List.Forall₂ SameAs ps qs := by
  induction h generalizing m with
  | finish => exact ⟨[], .finish m, .nil⟩
  | @round _ read _ _ _ hround _ ih =>
    obtain ⟨q?, hround', hq⟩ := hround.returned m
    obtain ⟨qs, hcuts, hqs⟩ := ih (m + Text.size (withReturns read))
    rw [Text.withReturns_append]
    exact ⟨q?.toList ++ qs, .round hround' hcuts, List.rel_append hq hqs⟩

section
variable {ps qs : List Piece} (h : List.Forall₂ SameAs ps qs)
include h

theorem texts_of_sameAs : qs.map (·.text) = (ps.map (·.text)).map withReturns := by
  induction h with
  | nil => rfl
  | cons hp _ ih => rw [List.map_cons, hp.text, ih, List.map_cons, List.map_cons]

theorem issueKinds_of_sameAs :
    (qs.filterMap (·.issue?)).map (·.kind) = (ps.filterMap (·.issue?)).map (·.kind) := by
  refine issueKinds_congr ?_
  induction h with
  | nil => rfl
  | cons hp _ ih => rw [List.map_cons, List.map_cons, hp.form, ih]

end

end Piece

theorem Split.sameAs_pieces (source : Text) :
    List.Forall₂ Piece.SameAs (ofSource source).pieces
      (ofSource (Text.withReturns source)).pieces := by
  obtain ⟨qs, hcuts, hqs⟩ := (Piece.cuts_ofSource 0 source).returned 0
  have hpieces : (ofSource (Text.withReturns source)).pieces = qs := Piece.cuts_iff.1 hcuts
  rw [hpieces]
  exact hqs

/-- A source means the same with returns in front of its line feeds. -/
theorem Split.ofSource_withReturns (source : Text) :
    (ofSource (Text.withReturns source)).issues.map (·.kind) =
        (ofSource source).issues.map (·.kind) ∧
      (ofSource (Text.withReturns source)).comments.length = (ofSource source).comments.length ∧
      Comment.normalize (ofSource (Text.withReturns source)).comments =
        Comment.normalize (ofSource source).comments ∧
      Comment.toHtml (ofSource (Text.withReturns source)).comments =
        Comment.toHtml (ofSource source).comments := by
  have hpieces := sameAs_pieces source
  have hcomments : (ofSource (Text.withReturns source)).comments =
      (ofSource source).comments.map Text.withReturns := Piece.texts_of_sameAs hpieces
  have hnormal : Comment.normalize (ofSource (Text.withReturns source)).comments =
      Comment.normalize (ofSource source).comments := by
    rw [hcomments, Comment.normalize_map_withReturns]
  refine ⟨Piece.issueKinds_of_sameAs hpieces, ?_, hnormal, Comment.toHtml_congr hnormal⟩
  rw [hcomments, List.length_map]

end DocComment
