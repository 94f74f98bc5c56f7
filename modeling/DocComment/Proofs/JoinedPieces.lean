import DocComment.Proofs.SourceCoverage

/-!
# Pieces on lines of their own

A source can be written anew with each of its pieces on a line of its own, and cutting it again gives
the same comments and issues of the same kinds (`Split.ofSource_unlines_comments`).

A piece is found again where a line begins with it and nothing comes behind it on its last line
(`Piece.Round.cuts_line`). This holds of a piece that was cut from the middle of a line as well, for no
piece begins with an indentation. An unclosed block comment would take in what is on the lines behind
it, but it is the last piece.
-/

namespace DocComment

namespace Piece

/-- A piece that a round has found is found again at the beginning of a line that holds nothing else. -/
theorem Round.cuts_line {n m : Nat} {read next brk rest : Text} {p : Piece} {ps : List Piece}
    (h : Round n read next (some p)) (hbrk : LineEnd brk rest)
    (hunclosed : p.form = .unclosed → brk = [])
    (hrest : Cuts (m + Text.size (p.text ++ brk)) rest ps) :
    Cuts m (p.text ++ (brk ++ rest)) (⟨p.form, m, p.text⟩ :: ps) := by
  have hindent : ∀ c ∈ ([] : Text), isIndent c = true := fun c hc => absurd hc List.not_mem_nil
  cases h with
  | @line form _ body _ _ _ _ hbody hne hnewline htrimmed hform hadmits =>
    have hround : Round m ([] ++ (body ++ ([] ++ brk))) rest (some ⟨form, m + 0, body⟩) :=
      .line hindent hbody hne hnewline htrimmed hform hadmits (by decide) List.not_mem_nil hbrk
    simpa using Cuts.round hround hrest
  | @block _ text _ _ htext =>
    have hround : Round m ([] ++ text) (brk ++ rest) (some ⟨.block, m + 0, text⟩) :=
      .block hindent htext
    -- the line is read to its end in a round of its own
    have hcuts : Cuts (m + Text.size text) (brk ++ rest) ps := by
      rw [Text.size_append, ← Nat.add_assoc] at hrest
      cases hbrk with
      | newline rest =>
        have hblank : Round (m + Text.size text) ([] ++ ['\n']) rest none :=
          .blank (by decide) List.not_mem_nil (.newline rest) (by decide)
        exact .round hblank hrest
      | finish => exact hrest
    simpa using Cuts.round hround hcuts
  | @unclosed _ text _ htext =>
    obtain rfl := hunclosed rfl
    cases hbrk with
    | finish =>
      have hround : Round m ([] ++ text) [] (some ⟨.unclosed, m + 0, text⟩) :=
        .unclosed hindent htext
      rw [List.append_nil] at hrest
      simpa using Cuts.round hround hrest

/-- The pieces of a source, written one on a line, are the pieces of what is written. -/
theorem Cuts.unlines {n : Nat} {source : Text} {ps : List Piece} (h : Cuts n source ps) (m : Nat) :
    ∃ qs, Cuts m (Text.unlines (ps.map (·.text))) qs ∧ qs.map (·.text) = ps.map (·.text) ∧
      qs.map (·.form) = ps.map (·.form) := by
  induction h generalizing m with
  | finish => exact ⟨[], .finish m, rfl, rfl⟩
  | @round n read next p? ps hround hcuts ih =>
    cases p? with
    | none => exact ih m
    | some p =>
      by_cases hps : ps = []
      · subst hps
        have hline := hround.cuts_line (m := m) .finish (fun _ => rfl) (.finish _)
        exact ⟨[⟨p.form, m, p.text⟩], by simpa using hline, rfl, rfl⟩
      · obtain ⟨qs, hqs, htexts, hforms⟩ := ih (m + Text.size (p.text ++ ['\n']))
        have hclosed : p.form ≠ .unclosed := by
          intro hform
          obtain ⟨rfl, -⟩ := hround.eq_nil_of_unclosed rfl hform
          exact hps hcuts.eq_nil
        have hline := hround.cuts_line (.newline _) (fun hform => absurd hform hclosed) hqs
        refine ⟨⟨p.form, m, p.text⟩ :: qs, ?_, by simp [htexts], by simp [hforms]⟩
        rw [Option.toList_some, List.singleton_append, List.map_cons,
          Text.unlines_cons _ (by simpa using hps)]
        exact hline

end Piece

/-- Cutting a source, writing what was found on lines of its own and cutting again changes nothing. -/
theorem Split.ofSource_unlines_comments (source : Text) :
    (ofSource (Text.unlines (ofSource source).comments)).comments = (ofSource source).comments ∧
      (ofSource (Text.unlines (ofSource source).comments)).issues.map (·.kind) =
        (ofSource source).issues.map (·.kind) := by
  obtain ⟨qs, hcuts, htexts, hforms⟩ := (Piece.cuts_ofSource 0 source).unlines 0
  have hpieces : (ofSource (Text.unlines (ofSource source).comments)).pieces = qs :=
    Piece.cuts_iff.1 hcuts
  rw [comments, issues, hpieces]
  exact ⟨htexts, Piece.issueKinds_congr hforms⟩

end DocComment
