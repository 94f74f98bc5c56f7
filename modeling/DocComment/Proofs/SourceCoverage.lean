import DocComment.Proofs.Offsets
import DocComment.Proofs.SourceRounds

/-!
# Nothing but white space is left out

`Split.lossless_ofSource`: the pieces of a source are parts of it that come one behind the other, and
what lies between them is white space. A piece does not begin with an indentation, and only an
unclosed block comment, which is the last piece, may end with white space.

What one round reads is a piece with white space around it (`Piece.Round.exists_gap`), which gives a
division of the source into pieces and gaps (`Piece.Laid`).
-/

namespace DocComment

namespace Piece

/-- Pieces at their offsets in a text that begins at the offset `n`, with white space between them. -/
inductive Laid : Nat → Text → List Piece → Prop
  | nil {n : Nat} {gap : Text} : Text.White gap → Laid n gap []
  | cons {n : Nat} {gap rest : Text} {p : Piece} {ps : List Piece} : Text.White gap →
      p.start = n + Text.size gap → p.text ≠ [] → Laid (p.start + Text.size p.text) rest ps →
      Laid n (gap ++ (p.text ++ rest)) (p :: ps)

namespace Laid
variable {text rest : Text} {n : Nat} {ps : List Piece}

theorem append_left {gap : Text} (hgap : Text.White gap) (h : Laid (n + Text.size gap) rest ps) :
    Laid n (gap ++ rest) ps := by
  cases h with
  | nil hrest => exact .nil (hgap.append hrest)
  | @cons _ gap' rest p ps hgap' hstart hne hrest =>
    rw [← List.append_assoc]
    refine .cons (hgap.append hgap') ?_ hne hrest
    rw [hstart, Text.size_append, Nat.add_assoc]

theorem standsAt (h : Laid n rest ps) (hrest : Text.StandsAt text n rest) {p : Piece} (hp : p ∈ ps) :
    n ≤ p.start ∧ p.text ≠ [] ∧ Text.StandsAt text p.start p.text := by
  induction h with
  | nil _ => cases hp
  | cons _ hstart hne _ ih =>
    rw [hstart] at ih
    rcases List.mem_cons.1 hp with rfl | hp
    · rw [hstart]
      exact ⟨Nat.le_add_right _ _, hne, hrest.right.left⟩
    · obtain ⟨hle, hpiece⟩ := ih hrest.right.right hp
      exact ⟨by omega, hpiece⟩

theorem pairwise (h : Laid n rest ps) (hrest : Text.StandsAt text n rest) :
    ps.Pairwise fun p q => p.start < q.start ∧ p.start + Text.size p.text ≤ q.start := by
  induction h with
  | nil _ => exact .nil
  | cons _ hstart hne htail ih =>
    have hafter := hrest.right.right
    rw [← hstart] at hafter
    refine .cons (fun q hq => ?_) (ih hafter)
    have hle := (htail.standsAt hafter hq).1
    have hpos := Text.size_pos hne
    exact ⟨by omega, hle⟩

/-- A character is in a piece, or it is white space. -/
theorem covers (h : Laid n rest ps) {before after : Text} {c : Char}
    (hc : rest = before ++ c :: after) :
    isWhite c = true ∨ ∃ p ∈ ps, p.start ≤ n + Text.size before ∧
      n + Text.size before + c.utf8Size ≤ p.start + Text.size p.text := by
  induction h generalizing before with
  | nil hgap =>
    rw [hc] at hgap
    exact .inl (hgap c (by simp))
  | @cons n gap rest p ps hgap hstart _ _ ih =>
    rcases Text.exists_of_append_eq hc with ⟨w, rfl⟩ | ⟨w, rfl, hpiece⟩
    · exact .inl (hgap c (by simp))
    · rcases Text.exists_of_append_eq hpiece with ⟨u, hu⟩ | ⟨u, rfl, hrest⟩
      · refine .inr ⟨p, List.mem_cons_self, ?_⟩
        rw [hstart, hu, Text.size_append, Text.size_append, Text.size_cons]
        omega
      · rcases ih hrest with hc | ⟨q, hq, hle⟩
        · exact .inl hc
        · refine .inr ⟨q, List.mem_cons_of_mem p hq, ?_⟩
          rw [hstart] at hle
          simpa only [Text.size_append, Nat.add_assoc] using hle

theorem filter_eq (h : Laid n rest ps) :
    rest.filter (!isWhite ·) = (ps.map (·.text)).flatten.filter (!isWhite ·) := by
  induction h with
  | nil hgap => rw [hgap.filter_eq_nil, List.map_nil, List.flatten_nil, List.filter_nil]
  | cons hgap _ _ _ ih =>
    rw [List.filter_append, hgap.filter_eq_nil, List.filter_append, ih, List.map_cons,
      List.flatten_cons, List.filter_append, List.nil_append]

end Laid

namespace Round
variable {n : Nat} {read next : Text} {p? : Option Piece}

/-- A round reads white space around a piece, or white space alone. -/
theorem exists_gap (h : Round n read next p?) :
    ∃ gap tail, Text.White gap ∧ Text.White tail ∧
      read = gap ++ ((p?.toList.map (·.text)).flatten ++ tail) ∧
      ∀ p ∈ p?, p.start = n + Text.size gap := by
  have hbrk : ∀ {brk : Text}, LineEnd brk next → Text.White brk := fun hbrk => by
    cases hbrk <;> decide
  cases h with
  | @blank gap brk _ hgap _ hend _ => exact ⟨gap, brk, hgap, hbrk hend, by simp, by simp⟩
  | @line form indent body gap brk _ hindent _ _ _ _ _ _ hgap _ hend =>
    exact ⟨indent, gap ++ brk, Text.white_of_isIndent hindent, hgap.append (hbrk hend), by simp,
      by simp⟩
  | @block indent text _ hindent _ =>
    exact ⟨indent, [], Text.white_of_isIndent hindent, by decide, by simp, by simp⟩
  | @unclosed indent text hindent _ =>
    exact ⟨indent, [], Text.white_of_isIndent hindent, by decide, by simp, by simp⟩

/-- Only what takes the rest of a source is left with its end as it is. -/
theorem piece (h : Round n read next p?) {p : Piece} (hp : p ∈ p?) :
    p.form.Admits p.text ∧ p.text ≠ [] ∧ Markup.startsWith isIndent p.text = false ∧
      (Text.Trimmed p.text ∨ p.form = .unclosed) := by
  have hopen : ∀ {t : Text}, Comment.blockOpen <+: t →
      t ≠ [] ∧ Markup.startsWith isIndent t = false := by
    rintro t ⟨u, rfl⟩
    exact ⟨List.cons_ne_nil _ _, rfl⟩
  cases h with
  | blank => cases hp
  | line _ hbody hne _ htrimmed _ hadmits =>
    obtain rfl := Option.mem_some.1 hp
    exact ⟨hadmits, hne, hbody, .inl htrimmed⟩
  | block _ htext =>
    obtain rfl := Option.mem_some.1 hp
    obtain ⟨hne, hstart⟩ := hopen htext.1
    obtain ⟨content, heq, -⟩ := Comment.isBlock_iff.1 htext
    refine ⟨htext, hne, hstart, .inl ?_⟩
    rw [heq, ← List.append_assoc]
    exact Text.Trimmed.append _ (by decide) (by decide)
  | unclosed _ htext =>
    obtain rfl := Option.mem_some.1 hp
    obtain ⟨hne, hstart⟩ := hopen htext.1
    exact ⟨htext, hne, hstart, .inr rfl⟩

theorem eq_nil_of_unclosed (h : Round n read next p?) {p : Piece} (hp : p ∈ p?)
    (hform : p.form = .unclosed) :
    next = [] ∧ p.start + Text.size p.text = n + Text.size read := by
  cases h with
  | blank => cases hp
  | line _ _ _ _ _ hline =>
    obtain rfl := Option.mem_some.1 hp
    rcases hline with rfl | rfl <;> cases hform
  | block =>
    obtain rfl := Option.mem_some.1 hp
    cases hform
  | unclosed =>
    obtain rfl := Option.mem_some.1 hp
    rw [Text.size_append, Nat.add_assoc]
    exact ⟨rfl, rfl⟩

end Round

namespace Cuts
variable {n : Nat} {source : Text} {ps : List Piece}

theorem laid (h : Cuts n source ps) : Laid n source ps := by
  induction h with
  | finish n => exact .nil (by decide)
  | @round n read next p? ps hround _ ih =>
    obtain ⟨gap, tail, hgap, htail, rfl, hstart⟩ := hround.exists_gap
    cases p? with
    | none => exact ih.append_left (by simpa using hgap.append htail)
    | some p =>
      have hp := hstart p rfl
      obtain ⟨-, hne, -⟩ := hround.piece rfl
      have hrest : Laid (p.start + Text.size p.text) (tail ++ next) ps := by
        refine .append_left htail ?_
        simpa [hp, Nat.add_assoc] using ih
      simpa using hrest.cons hgap hp hne

theorem eq_nil (h : Cuts n [] ps) : ps = [] := by
  rw [← cuts_iff.1 h, ofSource_nil]

theorem piece (h : Cuts n source ps) {p : Piece} (hp : p ∈ ps) :
    p.form.Admits p.text ∧ Markup.startsWith isIndent p.text = false ∧
      (Text.Trimmed p.text ∨ p.form = .unclosed) := by
  induction h with
  | finish n => cases hp
  | round hround _ ih =>
    rcases List.mem_append.1 hp with hp | hp
    · obtain ⟨hadmits, -, hstart, htrimmed⟩ := hround.piece (Option.mem_toList.1 hp)
      exact ⟨hadmits, hstart, htrimmed⟩
    · exact ih hp

/-- An unclosed block comment is the last piece and goes on to the end of the source. -/
theorem eq_nil_of_unclosed (h : Cuts n source ps) {before after : List Piece} {p : Piece}
    (hps : ps = before ++ p :: after) (hform : p.form = .unclosed) :
    after = [] ∧ p.start + Text.size p.text = n + Text.size source := by
  induction h generalizing before with
  | finish n => simp at hps
  | @round n read next p? ps hround hcuts ih =>
    rw [Text.size_append, ← Nat.add_assoc]
    cases p? with
    | none => exact ih hps
    | some q =>
      rcases List.cons_eq_append_iff.1 hps with ⟨-, heq⟩ | ⟨before', -, heq⟩
      · obtain ⟨rfl, rfl⟩ := List.cons.inj heq
        obtain ⟨rfl, hend⟩ := hround.eq_nil_of_unclosed rfl hform
        exact ⟨hcuts.eq_nil, hend⟩
      · exact ih heq

end Cuts

end Piece

namespace Split

/-- The pieces of a split hold all of a source, white space apart. -/
structure Lossless (source : Text) (s : Split) : Prop where
  /-- Rounds that read something each lead to the end of the source and give the pieces. -/
  rounds : Piece.Cuts 0 source s.pieces
  standsAt : ∀ p ∈ s.pieces, p.text ≠ [] ∧ Text.StandsAt source p.start p.text
  ordered : s.pieces.Pairwise fun p q => p.start < q.start ∧ p.start + Text.size p.text ≤ q.start
  covers : ∀ before c after, source = before ++ c :: after → isWhite c = true ∨
    ∃ p ∈ s.pieces, p.start ≤ Text.size before ∧
      Text.size before + c.utf8Size ≤ p.start + Text.size p.text
  filter_eq : source.filter (!isWhite ·) = s.comments.flatten.filter (!isWhite ·)
  unindented : ∀ t ∈ s.comments, Markup.startsWith isIndent t = false
  /-- Only an unclosed block comment, as the last one, may end with white space. -/
  trimmed : ∀ before t after, s.comments = before ++ t :: after →
    Text.Trimmed t ∨ Comment.IsUnclosed t ∧ after = []

/-- A source is cut into pieces without loss. -/
theorem lossless_ofSource (source : Text) : Lossless source (ofSource source) := by
  have hcuts : Piece.Cuts 0 source (ofSource source).pieces := Piece.cuts_ofSource 0 source
  have hsource := Text.StandsAt.self source
  refine ⟨hcuts, ?_, hcuts.laid.pairwise hsource, ?_, hcuts.laid.filter_eq, ?_, ?_⟩
  · intro p hp
    exact (hcuts.laid.standsAt hsource hp).2
  · intro before c after hc
    simpa using hcuts.laid.covers hc
  · intro t ht
    obtain ⟨p, hp, rfl⟩ := List.mem_map.1 ht
    exact (hcuts.piece hp).2.1
  · intro before t after ht
    obtain ⟨before, tail, hps, rfl, htail⟩ := List.map_eq_append_iff.1 ht
    obtain ⟨p, after, rfl, rfl, rfl⟩ := List.map_eq_cons_iff.1 htail
    have hp : p ∈ (ofSource source).pieces := by
      rw [hps]
      exact List.mem_append_right _ List.mem_cons_self
    obtain ⟨hadmits, -, htrimmed⟩ := hcuts.piece hp
    refine htrimmed.imp_right fun hform => ?_
    obtain ⟨rfl, -⟩ := hcuts.eq_nil_of_unclosed hps hform
    rw [hform] at hadmits
    exact ⟨hadmits, rfl⟩

end Split

end DocComment
