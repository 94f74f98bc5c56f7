import DocComment.Proofs.SourceCoverage
import Mathlib.Data.List.Forall2

/-!
# The issues of a source

A comment is well-formed if it is a line comment on one line or a block comment with its closing
delimiter at the end (`Comment.IsWellFormed`). `Split.diagnosed_ofSource`: the issues of a source are
those of its pieces that are not well-formed, in their order, each with the span of its piece. A
block comment without its closing delimiter is the last piece, so its issue is the last one.

The text of a piece decides its form (`Piece.Form.Admits.unique`), and the form decides the issue.
-/

namespace DocComment

namespace Piece

/-- A text has one form. -/
theorem Form.Admits.unique {f g : Form} {t : Text} (hf : f.Admits t) (hg : g.Admits t) : f = g := by
  have hline : Comment.lineMarker <+: t → ¬ Comment.blockOpen <+: t := by
    rintro ⟨u, rfl⟩
    simp [Comment.lineMarker, Comment.blockOpen]
  have hclosed : Comment.IsBlock t → ¬ Comment.IsUnclosed t := fun hblock hunclosed =>
    hunclosed.2 hblock.2.1.isInfix
  cases f with
  | line =>
    cases g with
    | line => rfl
    | block => exact absurd hg.1 (hline hf.1)
    | unclosed => exact absurd hg.1 (hline hf.1)
    | stray => exact absurd hf.1 hg.1
  | block =>
    cases g with
    | line => exact absurd hf.1 (hline hg.1)
    | block => rfl
    | unclosed => exact absurd hg (hclosed hf)
    | stray => exact absurd hf.1 hg.2
  | unclosed =>
    cases g with
    | line => exact absurd hf.1 (hline hg.1)
    | block => exact absurd hf (hclosed hg)
    | unclosed => rfl
    | stray => exact absurd hf.1 hg.2
  | stray =>
    cases g with
    | line => exact absurd hg.1 hf.1
    | block => exact absurd hg.1 hf.2
    | unclosed => exact absurd hg.1 hf.2
    | stray => rfl

theorem Form.Admits.iff_eq {f : Form} {t : Text} (hf : f.Admits t) (g : Form) :
    g.Admits t ↔ f = g :=
  ⟨hf.unique, fun h => h ▸ hf⟩

/-- The issue `i` reports the piece `p` of a source. -/
structure Reported (source : Text) (p : Piece) (i : Issue) : Prop where
  stray_iff : Comment.IsStray p.text ↔ i.kind = .stray
  unclosed_iff : Comment.IsUnclosed p.text ↔ i.kind = .unclosed
  span : ∃ span, i.span = some span ∧ span.start.toNat = p.start ∧
    span.stop.toNat = p.start + Text.size p.text ∧ span.slice source = p.text

section
variable {source : Text} {p : Piece}

theorem isWellFormed_iff (hadmits : p.form.Admits p.text) :
    Comment.IsWellFormed p.text ↔ p.issue? = none := by
  have hline : Comment.IsLine p.text ↔ p.form = .line := hadmits.iff_eq .line
  have hblock : Comment.IsBlock p.text ↔ p.form = .block := hadmits.iff_eq .block
  rw [Comment.IsWellFormed, hline, hblock, issue?]
  cases p.form <;> simp

theorem reported (hsize : Text.size source < UInt32.size)
    (hstands : Text.StandsAt source p.start p.text) (hadmits : p.form.Admits p.text) {i : Issue}
    (hi : p.issue? = some i) : Reported source p i := by
  have hbound := Nat.lt_of_le_of_lt hstands.add_size_le hsize
  have hstart : p.span.start.toNat = p.start := Span.toNat_start_ofText hbound
  have hstop : p.span.stop.toNat = p.start + Text.size p.text := Span.toNat_stop_ofText hbound
  have hslice : p.span.slice source = p.text :=
    Span.slice_eq p.text (by rwa [hstart]) (by rw [hstop, hstart])
  have hkind : i.span = some p.span ∧ (p.form = .stray ↔ i.kind = .stray) ∧
      (p.form = .unclosed ↔ i.kind = .unclosed) := by
    rw [issue?] at hi
    split at hi
    · cases hi
    · cases hi
    · next hform =>
      cases hi
      simp [hform]
    · next hform =>
      cases hi
      simp [hform]
  obtain ⟨hspan, hstray, hunclosed⟩ := hkind
  exact ⟨(hadmits.iff_eq .stray).trans hstray, (hadmits.iff_eq .unclosed).trans hunclosed,
    p.span, hspan, hstart, hstop, hslice⟩

end

theorem forall₂_reported {source : Text} {ps : List Piece} (hsize : Text.size source < UInt32.size)
    (h : ∀ p ∈ ps, p.form.Admits p.text ∧ Text.StandsAt source p.start p.text) :
    List.Forall₂ (Reported source) (ps.filter fun p => ¬ Comment.IsWellFormed p.text)
      (ps.filterMap (·.issue?)) := by
  induction ps with
  | nil => exact .nil
  | cons p ps ih =>
    obtain ⟨⟨hadmits, hstands⟩, hps⟩ := List.forall_mem_cons.1 h
    have hiff := isWellFormed_iff hadmits
    cases hissue : p.issue? with
    | none =>
      rw [List.filterMap_cons_none hissue, List.filter_cons_of_neg (by simpa using hiff.2 hissue)]
      exact ih hps
    | some i =>
      rw [List.filterMap_cons_some hissue,
        List.filter_cons_of_pos (by simpa [hissue] using hiff.not)]
      exact .cons (reported hsize hstands hadmits hissue) (ih hps)

end Piece

namespace Split

/-- The issues of a split are those of its malformed pieces. -/
structure Diagnosed (source : Text) (s : Split) : Prop where
  reported : List.Forall₂ (Piece.Reported source)
    (s.pieces.filter fun p => ¬ Comment.IsWellFormed p.text) s.issues
  countP_unclosed : s.issues.countP (·.kind = .unclosed) ≤ 1
  /-- An unclosed block comment is the last piece, has the last issue, and ends with the source. -/
  unclosed : ∀ before i after, s.issues = before ++ i :: after → i.kind = .unclosed →
    after = [] ∧ (∃ span, i.span = some span ∧ span.stop.toNat = Text.size source) ∧
      ∃ p, s.pieces.getLast? = some p ∧ Piece.Reported source p i
  strict_eq_ok_iff : s.strict = .ok s.comments ↔ ∀ t ∈ s.comments, Comment.IsWellFormed t
  /-- Otherwise the first malformed piece decides. -/
  strict_eq_error : ∀ p, s.pieces.find? (fun p => ¬ Comment.IsWellFormed p.text) = some p →
    ∃ i, s.issues.head? = some i ∧ s.strict = .error i ∧ Piece.Reported source p i

section
variable {source : Text} {s : Split}
variable (h : List.Forall₂ (Piece.Reported source)
  (s.pieces.filter fun p => ¬ Comment.IsWellFormed p.text) s.issues)
include h

theorem issues_eq_nil_iff : s.issues = [] ↔ ∀ t ∈ s.comments, Comment.IsWellFormed t := by
  have hlength := h.length_eq
  rw [← List.length_eq_zero_iff, ← hlength, List.length_eq_zero_iff, List.filter_eq_nil_iff]
  simp [comments]

theorem strict_eq_ok_iff : s.strict = .ok s.comments ↔ ∀ t ∈ s.comments, Comment.IsWellFormed t := by
  rw [← issues_eq_nil_iff h, strict]
  cases s.issues <;> simp

theorem exists_strict_eq_error {p : Piece}
    (hp : s.pieces.find? (fun p => ¬ Comment.IsWellFormed p.text) = some p) :
    ∃ i, s.issues.head? = some i ∧ s.strict = .error i ∧ Piece.Reported source p i := by
  rw [← List.head?_filter] at hp
  obtain ⟨ps, hps⟩ := List.head?_eq_some_iff.1 hp
  rw [hps] at h
  generalize hissues : s.issues = is at h
  cases h with
  | @cons _ i _ is hreported _ =>
    rw [strict, hissues]
    exact ⟨i, rfl, rfl, hreported⟩

end

/-- At most one issue is unclosed if none comes behind an unclosed one. -/
theorem countP_unclosed_le {is : List Issue}
    (h : ∀ before i after, is = before ++ i :: after → i.kind = .unclosed → after = []) :
    is.countP (·.kind = .unclosed) ≤ 1 := by
  induction is with
  | nil => exact Nat.zero_le 1
  | cons i is ih =>
    by_cases hi : i.kind = .unclosed
    · obtain rfl := h [] i is rfl hi
      simp [hi]
    · rw [List.countP_cons_of_neg (by simpa using hi)]
      refine ih fun before j after his => h (i :: before) j after ?_
      rw [his, List.cons_append]

/-- Every source has the issues of its malformed pieces. -/
theorem diagnosed_ofSource (source : Text) (hsize : Text.size source < UInt32.size) :
    Diagnosed source (ofSource source) := by
  have hcuts : Piece.Cuts 0 source (ofSource source).pieces := Piece.cuts_ofSource 0 source
  have hpieces : ∀ p ∈ (ofSource source).pieces,
      p.form.Admits p.text ∧ Text.StandsAt source p.start p.text := fun p hp =>
    ⟨(hcuts.piece hp).1, (hcuts.laid.standsAt (.self source) hp).2.2⟩
  have hreported := Piece.forall₂_reported hsize hpieces
  have hunclosed : ∀ before i after, (ofSource source).issues = before ++ i :: after →
      i.kind = .unclosed → after = [] ∧
        (∃ span, i.span = some span ∧ span.stop.toNat = Text.size source) ∧
        ∃ p, (ofSource source).pieces.getLast? = some p ∧ Piece.Reported source p i := by
    intro before i after hissues hkind
    obtain ⟨ps, qs, hps, -, hqs⟩ := List.filterMap_eq_append_iff.1 hissues
    obtain ⟨qs, p, rs, rfl, -, hissue, rfl⟩ := List.filterMap_eq_cons_iff.1 hqs
    rw [← List.append_assoc] at hps
    obtain ⟨hadmits, hstands⟩ := hpieces p (by simp [hps])
    have hp := Piece.reported hsize hstands hadmits hissue
    have hform := (hadmits.iff_eq .unclosed).1 (hp.unclosed_iff.2 hkind)
    obtain ⟨rfl, hend⟩ := hcuts.eq_nil_of_unclosed hps hform
    obtain ⟨span, hspan, -, hstop, -⟩ := hp.span
    refine ⟨rfl, ⟨span, hspan, by rw [hstop, hend, Nat.zero_add]⟩, p, ?_, hp⟩
    rw [hps]
    exact List.getLast?_concat
  have hcount := countP_unclosed_le fun before i after his hi => (hunclosed before i after his hi).1
  exact ⟨hreported, hcount, hunclosed, strict_eq_ok_iff hreported,
    fun p hp => exists_strict_eq_error hreported hp⟩

theorem diagnosed_ofSource_recovered :
    Text.size "/* é */ x  \n// y\n/*/".toList < UInt32.size ∧
      Diagnosed "/* é */ x  \n// y\n/*/".toList (ofSource "/* é */ x  \n// y\n/*/".toList) :=
  ⟨by decide, diagnosed_ofSource _ (by decide)⟩

end Split

end DocComment
