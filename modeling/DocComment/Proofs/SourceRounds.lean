import DocComment.Comment.Split
import DocComment.Markup
import DocComment.Proofs.Openers
import DocComment.Proofs.TrimmedLines

/-!
# Reading a source round by round

A source is read in rounds. A round reads a blank line, a line that becomes a piece, a block comment
up to its closing delimiter, or a block comment without one, which takes the rest
(`Piece.Round`). Every round reads something (`Piece.Round.ne_nil`), so the rounds come to an end with
the source, and `Piece.Cuts` says which pieces they give. `Piece.ofSource` gives these pieces for
every source, and no others are given (`Piece.cuts_iff`).

What holds of the pieces of a source is shown for one round first, and then for all of them.
-/

namespace DocComment

namespace Text

theorem isPrefixOf?_eq_none_iff {sep t : Text} : sep.isPrefixOf? t = none ↔ ¬ sep <+: t := by
  rw [Option.eq_none_iff_forall_ne_some]
  constructor
  · rintro h ⟨rest, hrest⟩
    exact h rest (List.isPrefixOf?_eq_some_iff_append_eq.2 hrest)
  · intro h rest hrest
    exact h ⟨rest, List.isPrefixOf?_eq_some_iff_append_eq.1 hrest⟩

theorem cut?_eq_none_iff {sep t : Text} (hsep : sep ≠ []) : cut? sep t = none ↔ ¬ sep <:+: t := by
  induction t with
  | nil => simp [cut?, isPrefixOf?_eq_none_iff, hsep]
  | cons c t ih =>
    rw [cut?, List.infix_cons_iff, not_or, ← ih, ← isPrefixOf?_eq_none_iff]
    cases hfound : sep.isPrefixOf? (c :: t) <;> simp

theorem isPrefix_dropLast_append (before sep after : Text) :
    (before ++ sep).dropLast <+: before ++ (sep ++ after) := by
  rw [← List.append_assoc]
  exact (List.dropLast_prefix _).trans (List.prefix_append _ _)

/-- An occurrence at the beginning is the first one. -/
theorem eq_nil_of_first {sep t before after : Text} (hbegin : sep <+: t)
    (ht : t = before ++ (sep ++ after)) (hfirst : ¬ sep <:+: (before ++ sep).dropLast) :
    before = [] := by
  by_contra hne
  have hpos := List.length_pos_iff.2 hne
  have hshort := isPrefix_dropLast_append before sep after
  rw [← ht] at hshort
  refine hfirst (List.prefix_of_prefix_length_le hbegin hshort ?_).isInfix
  rw [List.length_dropLast, List.length_append]
  omega

/-- A text is cut at the first occurrence: none ends earlier. -/
theorem cut?_eq_some_iff {sep t before after : Text} (hsep : sep ≠ []) :
    cut? sep t = some (before, after) ↔
      t = before ++ (sep ++ after) ∧ ¬ sep <:+: (before ++ sep).dropLast := by
  induction t generalizing before with
  | nil => simp [cut?, isPrefixOf?_eq_none_iff.2, hsep]
  | cons c t ih =>
    rw [cut?]
    split
    · next rest hrest =>
      have hrest := List.isPrefixOf?_eq_some_iff_append_eq.1 hrest
      constructor
      · rintro h
        obtain ⟨rfl, rfl⟩ : [] = before ∧ rest = after := by simpa using h
        refine ⟨hrest.symm, fun hinfix => ?_⟩
        have hlen := hinfix.length_le
        have hpos := List.length_pos_iff.2 hsep
        simp only [List.nil_append, List.length_dropLast] at hlen
        omega
      · rintro ⟨heq, hfirst⟩
        obtain rfl := eq_nil_of_first ⟨rest, hrest⟩ heq hfirst
        obtain rfl : rest = after := List.append_cancel_left (hrest.trans heq)
        rfl
    · next hnone =>
      have hnone := isPrefixOf?_eq_none_iff.1 hnone
      have hdropLast : ∀ u : Text, (c :: u ++ sep).dropLast = c :: (u ++ sep).dropLast := fun u => by
        rw [List.cons_append, List.dropLast_cons_of_ne_nil (by simp [hsep])]
      constructor
      · intro h
        obtain ⟨⟨before', after'⟩, hcut, heq⟩ := Option.map_eq_some_iff.1 h
        obtain ⟨rfl, rfl⟩ := Prod.mk.inj heq
        obtain ⟨rfl, hfirst⟩ := ih.1 hcut
        refine ⟨rfl, ?_⟩
        rw [hdropLast, List.infix_cons_iff, not_or, ← hdropLast]
        exact ⟨fun hbegin => hnone (hbegin.trans (isPrefix_dropLast_append _ _ _)), hfirst⟩
      · rintro ⟨heq, hfirst⟩
        cases before with
        | nil => exact absurd ⟨after, heq.symm⟩ hnone
        | cons d before =>
          obtain ⟨rfl, rfl⟩ := List.cons.inj heq
          rw [hdropLast, List.infix_cons_iff, not_or] at hfirst
          rw [ih.2 ⟨rfl, hfirst.2⟩]
          rfl

/-- Trimming reaches no further than the last part that is not white space. -/
theorem trimEnd_append_of_not_white (t : Text) {u : Text} (h : ¬ White u) :
    trimEnd (t ++ u) = t ++ trimEnd u := by
  obtain ⟨tail, htail, hu⟩ := exists_trimEnd u
  have hne : trimEnd u ≠ [] := fun hnil => h (trimEnd_eq_nil_iff.1 hnil)
  have hsplit : t ++ u = (t ++ trimEnd u) ++ tail := by rw [List.append_assoc, ← hu]
  rw [hsplit, trimEnd_append_of_trimmed ((trimmed_trimEnd u).append t hne) htail]

theorem isPrefix_trimEnd {m t : Text} (hm : Trimmed m) (h : m <+: t) : m <+: trimEnd t := by
  obtain ⟨u, rfl⟩ := h
  by_cases hu : White u
  · exact ⟨[], by rw [List.append_nil, trimEnd_append_of_trimmed hm hu]⟩
  · rw [trimEnd_append_of_not_white m hu]
    exact List.prefix_append m _

/-- A marker at the beginning of a text is at the beginning of its first line, trimmed. -/
theorem isPrefix_trimEnd_line {m t : Text} (hm : Trimmed m) (hnewline : '\n' ∉ m) :
    m <+: trimEnd (t.takeWhile (· != '\n')) ↔ m <+: t := by
  constructor
  · intro h
    exact (h.trans (List.rdropWhile_prefix isWhite _)).trans (List.takeWhile_prefix _)
  · rintro ⟨u, rfl⟩
    refine isPrefix_trimEnd hm ?_
    rw [List.takeWhile_append_of_pos]
    · exact List.prefix_append m _
    · intro c hc
      rw [bne_iff_ne]
      rintro rfl
      exact hnewline hc

end Text

/-! ### What a piece looks like -/

namespace Comment

/-- A line comment stands on one line. -/
def IsLine (t : Text) : Prop := lineMarker <+: t ∧ '\n' ∉ t

/-- Behind the opening delimiter of a block comment the closing one comes at the end and not
before. -/
def IsBlock (t : Text) : Prop :=
  blockOpen <+: t ∧ blockClose <:+ t.drop 2 ∧ ¬ blockClose <:+: (t.drop 2).dropLast

/-- A block comment that is never closed. -/
def IsUnclosed (t : Text) : Prop := blockOpen <+: t ∧ ¬ blockClose <:+: t.drop 2

/-- A text that begins like no comment. -/
def IsStray (t : Text) : Prop := ¬ lineMarker <+: t ∧ ¬ blockOpen <+: t

def IsWellFormed (t : Text) : Prop := IsLine t ∨ IsBlock t

instance (t : Text) : Decidable (IsLine t) := inferInstanceAs (Decidable (_ ∧ _))

instance (t : Text) : Decidable (IsBlock t) := inferInstanceAs (Decidable (_ ∧ _))

instance (t : Text) : Decidable (IsUnclosed t) := inferInstanceAs (Decidable (_ ∧ _))

instance (t : Text) : Decidable (IsStray t) := inferInstanceAs (Decidable (_ ∧ _))

instance (t : Text) : Decidable (IsWellFormed t) := inferInstanceAs (Decidable (_ ∨ _))

theorem isBlock_iff {t : Text} : IsBlock t ↔ ∃ content, t = blockOpen ++ (content ++ blockClose) ∧
    ¬ blockClose <:+: (content ++ blockClose).dropLast := by
  constructor
  · rintro ⟨⟨rest, rfl⟩, hclose, hfirst⟩
    obtain ⟨content, hcontent⟩ := hclose
    have hrest : (blockOpen ++ rest).drop 2 = rest := rfl
    rw [hrest] at hcontent hfirst
    rw [← hcontent] at hfirst ⊢
    exact ⟨content, rfl, hfirst⟩
  · rintro ⟨content, rfl, hfirst⟩
    exact ⟨List.prefix_append _ _, List.suffix_append content blockClose, hfirst⟩

end Comment

namespace Piece

/-- What the texts of the pieces of a form are. -/
def Form.Admits : Form → Text → Prop
  | .line => Comment.IsLine
  | .block => Comment.IsBlock
  | .unclosed => Comment.IsUnclosed
  | .stray => Comment.IsStray

theorem Form.Admits.not_blockOpen {form : Form} {t : Text} (h : form.Admits t)
    (hform : form = .line ∨ form = .stray) : ¬ Comment.blockOpen <+: t := by
  rcases hform with rfl | rfl
  · obtain ⟨⟨u, rfl⟩, -⟩ := h
    simp [Comment.lineMarker, Comment.blockOpen]
  · exact h.2

/-- The forms of pieces decide the kinds of their issues. -/
theorem issueKinds_congr {ps qs : List Piece} (h : qs.map (·.form) = ps.map (·.form)) :
    (qs.filterMap (·.issue?)).map (·.kind) = (ps.filterMap (·.issue?)).map (·.kind) := by
  have hkinds : ∀ rs : List Piece, (rs.filterMap (·.issue?)).map (·.kind) =
      (rs.map (·.form)).filterMap fun form => (issue? ⟨form, 0, []⟩).map (·.kind) := by
    intro rs
    rw [List.map_filterMap, List.filterMap_map]
    refine List.filterMap_congr fun p _ => ?_
    obtain ⟨form, start, text⟩ := p
    cases form <;> rfl
  rw [hkinds, hkinds, h]

/-! ### Rounds -/

/-- A line ends with a line feed, or with the source. -/
inductive LineEnd : Text → Text → Prop
  | newline (next : Text) : LineEnd ['\n'] next
  | finish : LineEnd [] []

/-- A round that begins at the offset `n` reads a text, leaves another one behind it, and finds a
piece or none. -/
inductive Round (n : Nat) : Text → Text → Option Piece → Prop
  | blank {gap brk next : Text} : Text.White gap → '\n' ∉ gap → LineEnd brk next →
      gap ++ brk ≠ [] → Round n (gap ++ brk) next none
  | line {form : Form} {indent body gap brk next : Text} : (∀ c ∈ indent, isIndent c = true) →
      Markup.startsWith isIndent body = false → body ≠ [] → '\n' ∉ body → Text.Trimmed body →
      form = .line ∨ form = .stray → form.Admits body →
      Text.White gap → '\n' ∉ gap → LineEnd brk next →
      Round n (indent ++ (body ++ (gap ++ brk))) next (some ⟨form, n + Text.size indent, body⟩)
  | block {indent text next : Text} : (∀ c ∈ indent, isIndent c = true) → Comment.IsBlock text →
      Round n (indent ++ text) next (some ⟨.block, n + Text.size indent, text⟩)
  | unclosed {indent text : Text} : (∀ c ∈ indent, isIndent c = true) → Comment.IsUnclosed text →
      Round n (indent ++ text) [] (some ⟨.unclosed, n + Text.size indent, text⟩)

/-- The pieces that rounds give, from the offset `n` to the end of a source. -/
inductive Cuts : Nat → Text → List Piece → Prop
  | finish (n : Nat) : Cuts n [] []
  | round {n : Nat} {read next : Text} {p? : Option Piece} {ps : List Piece} :
      Round n read next p? → Cuts (n + Text.size read) next ps →
      Cuts n (read ++ next) (p?.toList ++ ps)

section
variable {n : Nat} {indent line brk next : Text}

/-- The parts that a line and its end are cut into. -/
theorem cut_line (hindent : ∀ c ∈ indent, isIndent c = true)
    (hline : Markup.startsWith isIndent line = false) (hnewline : '\n' ∉ line)
    (hbrk : LineEnd brk next) :
    (indent ++ (line ++ (brk ++ next))).takeWhile isIndent = indent ∧
      (indent ++ (line ++ (brk ++ next))).dropWhile isIndent = line ++ (brk ++ next) ∧
      (line ++ (brk ++ next)).takeWhile (· != '\n') = line ∧
      (line ++ (brk ++ next)).drop (line.length + 1) = next := by
  have hrest : ∀ c ∈ (line ++ (brk ++ next)).head?, isIndent c = false := by
    cases line with
    | nil => cases hbrk <;> simp [isIndent]
    | cons d line => simpa [Markup.startsWith] using hline
  have hstop : ∀ c ∈ (brk ++ next).head?, (c != '\n') = false := by
    cases hbrk <;> simp
  have hrun : ∀ c ∈ line, (c != '\n') = true := by
    intro c hc
    rw [bne_iff_ne]
    rintro rfl
    exact hnewline hc
  obtain ⟨htake, hdrop⟩ := Node.takeWhile_run hindent hrest
  refine ⟨htake, hdrop, (Node.takeWhile_run hrun hstop).1, ?_⟩
  rw [List.drop_append, List.drop_of_length_le (Nat.le_succ _)]
  cases hbrk <;> simp

theorem ofSource_nil (n : Nat) : ofSource n [] = [] := by
  rw [ofSource, if_pos rfl]

/-- The offset behind the last line does not matter. -/
theorem ofSource_next (n : Nat) (hbrk : LineEnd brk next) :
    ofSource (n + 1) next = ofSource (n + Text.size brk) next := by
  cases hbrk with
  | newline => rfl
  | finish => rw [ofSource_nil, ofSource_nil]

/-- A line that opens no block gives its trimmed text, if there is any. -/
theorem ofSource_line (n : Nat) (hindent : ∀ c ∈ indent, isIndent c = true)
    (hline : Markup.startsWith isIndent line = false) (hnewline : '\n' ∉ line)
    (hbrk : LineEnd brk next) (hne : indent ++ (line ++ brk) ≠ [])
    (hblock : ¬ Comment.blockOpen <+: Text.trimEnd line) :
    ofSource n (indent ++ (line ++ (brk ++ next))) =
      (if Text.trimEnd line = [] then []
        else if Comment.lineMarker <+: Text.trimEnd line then
          [⟨.line, n + Text.size indent, Text.trimEnd line⟩]
        else [⟨.stray, n + Text.size indent, Text.trimEnd line⟩]) ++
      ofSource (n + Text.size (indent ++ (line ++ brk))) next := by
  obtain ⟨htake, hdrop, hread, hnext⟩ := cut_line hindent hline hnewline hbrk
  have hsource : indent ++ (line ++ (brk ++ next)) ≠ [] := by
    intro hnil
    simp_all
  have hoffset : ofSource (n + Text.size indent + Text.size line + 1) next =
      ofSource (n + Text.size (indent ++ (line ++ brk))) next := by
    rw [ofSource_next _ hbrk, Text.size_append, Text.size_append, Nat.add_assoc, Nat.add_assoc]
  rw [ofSource, if_neg hsource]
  simp only [htake, hdrop, hread, hnext, hoffset, List.isEmpty_iff, List.isPrefixOf_iff_prefix,
    if_neg hblock]
  split
  · rfl
  · split <;> rfl

/-- A block comment is read up to its closing delimiter, which may be on a later line. -/
theorem ofSource_open (n : Nat) (hindent : ∀ c ∈ indent, isIndent c = true) (text : Text) :
    ofSource n (indent ++ (Comment.blockOpen ++ text)) =
      match Text.cut? Comment.blockClose text with
      | some (content, after) =>
        ⟨.block, n + Text.size indent, Comment.blockOpen ++ content ++ Comment.blockClose⟩ ::
          ofSource (n + Text.size indent +
            Text.size (Comment.blockOpen ++ content ++ Comment.blockClose)) after
      | none => [⟨.unclosed, n + Text.size indent, Comment.blockOpen ++ text⟩] := by
  have hhead : ∀ c ∈ (Comment.blockOpen ++ text).head?, isIndent c = false := by
    simp [Comment.blockOpen, isIndent]
  obtain ⟨htake, hdrop⟩ := Node.takeWhile_run hindent hhead
  have hopen : Comment.blockOpen <+:
      Text.trimEnd ((Comment.blockOpen ++ text).takeWhile (· != '\n')) :=
    (Text.isPrefix_trimEnd_line (by decide) (by decide)).2 (List.prefix_append _ _)
  have hline : ¬ Comment.lineMarker <+:
      Text.trimEnd ((Comment.blockOpen ++ text).takeWhile (· != '\n')) := by
    rw [Text.isPrefix_trimEnd_line (by decide) (by decide)]
    simp [Comment.lineMarker, Comment.blockOpen]
  have hne := hopen.ne_nil (by decide)
  have htext : (Comment.blockOpen ++ text).drop 2 = text := rfl
  rw [ofSource, if_neg (by simp [Comment.blockOpen])]
  simp only [htake, hdrop, List.isEmpty_iff, List.isPrefixOf_iff_prefix, if_neg hne, if_neg hline,
    if_pos hopen]
  rw [htext]
  cases hcut : Text.cut? Comment.blockClose text with
  | none => rfl
  | some cut =>
    obtain ⟨content, after⟩ := cut
    obtain ⟨rfl, -⟩ := (Text.cut?_eq_some_iff (by decide)).1 hcut
    have hafter : (Comment.blockOpen ++ (content ++ (Comment.blockClose ++ after))).drop
        (Comment.blockOpen ++ content ++ Comment.blockClose).length = after := by
      rw [← List.append_assoc, ← List.append_assoc, List.drop_left]
    simp only [hafter]

end

namespace Round
variable {n : Nat} {read next : Text} {p? : Option Piece}

/-- Every round reads something. -/
theorem ne_nil (h : Round n read next p?) : read ≠ [] := by
  cases h with
  | blank _ _ _ hne => exact hne
  | line _ _ hne => simp [hne]
  | block _ htext => simp [htext.1.ne_nil (by decide)]
  | unclosed _ htext => simp [htext.1.ne_nil (by decide)]

theorem ofSource_eq (h : Round n read next p?) :
    ofSource n (read ++ next) = p?.toList ++ ofSource (n + Text.size read) next := by
  cases h with
  | @blank gap brk _ hgap hnewline hbrk hne =>
    have hsplit : ∀ t, gap.takeWhile isIndent ++ (gap.dropWhile isIndent ++ t) = gap ++ t := by
      intro t
      rw [← List.append_assoc, List.takeWhile_append_dropWhile]
    have hsub := (List.dropWhile_sublist (l := gap) isIndent).subset
    have hwhite : Text.trimEnd (gap.dropWhile isIndent) = [] :=
      Text.trimEnd_eq_nil_iff.2 fun c hc => hgap c (hsub hc)
    have hline := ofSource_line n (fun c hc => List.mem_takeWhile_imp hc)
      (Markup.startsWith_dropWhile isIndent gap) (fun hc => hnewline (hsub hc)) hbrk
      (by rwa [hsplit]) (by rw [hwhite]; decide)
    rw [if_pos hwhite, hsplit, hsplit] at hline
    rw [List.append_assoc, hline]
    rfl
  | @line form indent body gap brk _ hindent hbody hne hnewline htrimmed hform hadmits hgap hgap'
      hbrk =>
    have htrim := Text.trimEnd_append_of_trimmed htrimmed hgap
    have hstart : Markup.startsWith isIndent (body ++ gap) = false := by
      cases body with
      | nil => contradiction
      | cons c body => exact hbody
    have hline := ofSource_line n hindent hstart (by simp [hnewline, hgap']) hbrk (by simp [hne])
      (by rw [htrim]; exact hadmits.not_blockOpen hform)
    rw [htrim, if_neg hne] at hline
    simp only [List.append_assoc] at hline ⊢
    rw [hline]
    rcases hform with rfl | rfl
    · rw [if_pos hadmits.1]
      rfl
    · rw [if_neg hadmits.1]
      rfl
  | @block indent text _ hindent htext =>
    obtain ⟨content, rfl, hfirst⟩ := Comment.isBlock_iff.1 htext
    have hcut : Text.cut? Comment.blockClose (content ++ (Comment.blockClose ++ next)) =
        some (content, next) := (Text.cut?_eq_some_iff (by decide)).2 ⟨rfl, hfirst⟩
    have hopen := ofSource_open n hindent (content ++ (Comment.blockClose ++ next))
    rw [hcut] at hopen
    simpa [Nat.add_assoc] using hopen
  | @unclosed indent text hindent htext =>
    obtain ⟨⟨rest, rfl⟩, hclose⟩ := htext
    have hcut : Text.cut? Comment.blockClose rest = none :=
      (Text.cut?_eq_none_iff (by decide)).2 hclose
    have hopen := ofSource_open n hindent rest
    rw [hcut] at hopen
    simpa [ofSource_nil] using hopen

end Round

/-! ### There is always a round -/

theorem exists_lineEnd (t : Text) :
    ∃ line brk next, t = line ++ (brk ++ next) ∧ '\n' ∉ line ∧ LineEnd brk next := by
  induction t with
  | nil => exact ⟨[], [], [], rfl, List.not_mem_nil, .finish⟩
  | cons c t ih =>
    by_cases hc : c = '\n'
    · exact ⟨[], ['\n'], t, by rw [hc]; rfl, List.not_mem_nil, .newline t⟩
    · obtain ⟨line, brk, next, rfl, hline, hbrk⟩ := ih
      exact ⟨c :: line, brk, next, rfl, by simp [hline, Ne.symm hc], hbrk⟩

section
variable {indent : Text} (n : Nat) (hindent : ∀ c ∈ indent, isIndent c = true)
include hindent

theorem exists_line_round {rest : Text} (hrest : Markup.startsWith isIndent rest = false)
    (hopen : ¬ Comment.blockOpen <+: rest) (hne : indent ++ rest ≠ []) :
    ∃ read next p?, indent ++ rest = read ++ next ∧ Round n read next p? := by
  obtain ⟨line, brk, next, rfl, hnewline, hbrk⟩ := exists_lineEnd rest
  obtain ⟨gap, hgap, hline⟩ := Text.exists_trimEnd line
  by_cases hbody : Text.trimEnd line = []
  · have hwhite := (Text.white_of_isIndent hindent).append (Text.trimEnd_eq_nil_iff.1 hbody)
    have hindent' : '\n' ∉ indent := Text.not_mem_of_isIndent hindent rfl
    refine ⟨(indent ++ line) ++ brk, next, none, by simp,
      .blank hwhite (by simp [hindent', hnewline]) hbrk ?_⟩
    intro hnil
    cases hbrk with
    | newline => simp at hnil
    | finish => exact hne (by simpa using hnil)
  · have htrimmed := Text.trimmed_trimEnd line
    generalize Text.trimEnd line = body at hline hbody htrimmed
    subst hline
    obtain ⟨hnewline, hgap'⟩ : '\n' ∉ body ∧ '\n' ∉ gap := by simpa using hnewline
    have hstart : Markup.startsWith isIndent body = false := by
      cases body with
      | nil => contradiction
      | cons c body => exact hrest
    obtain ⟨form, hform, hadmits⟩ : ∃ form : Form, (form = .line ∨ form = .stray) ∧
        form.Admits body := by
      by_cases hmarker : Comment.lineMarker <+: body
      · exact ⟨.line, .inl rfl, hmarker, hnewline⟩
      · refine ⟨.stray, .inr rfl, hmarker, fun hbody => hopen (hbody.trans ?_)⟩
        rw [List.append_assoc]
        exact List.prefix_append body _
    exact ⟨indent ++ (body ++ (gap ++ brk)), next, _, by simp,
      .line hindent hstart hbody hnewline htrimmed hform hadmits hgap hgap' hbrk⟩

theorem exists_block_round (text : Text) :
    ∃ read next p?, indent ++ (Comment.blockOpen ++ text) = read ++ next ∧ Round n read next p? := by
  cases hcut : Text.cut? Comment.blockClose text with
  | none =>
    refine ⟨indent ++ (Comment.blockOpen ++ text), [], _, (List.append_nil _).symm,
      .unclosed hindent ⟨List.prefix_append _ _, ?_⟩⟩
    exact (Text.cut?_eq_none_iff (by decide)).1 hcut
  | some cut =>
    obtain ⟨content, after⟩ := cut
    obtain ⟨rfl, hfirst⟩ := (Text.cut?_eq_some_iff (by decide)).1 hcut
    refine ⟨indent ++ (Comment.blockOpen ++ (content ++ Comment.blockClose)), after, _, by simp,
      .block hindent (Comment.isBlock_iff.2 ⟨content, rfl, hfirst⟩)⟩

end

theorem exists_round (n : Nat) {source : Text} (h : source ≠ []) :
    ∃ read next p?, source = read ++ next ∧ Round n read next p? := by
  have hindent : ∀ c ∈ source.takeWhile isIndent, isIndent c = true :=
    fun c hc => List.mem_takeWhile_imp hc
  have hsplit := List.takeWhile_append_dropWhile (p := isIndent) (l := source)
  by_cases hopen : Comment.blockOpen <+: source.dropWhile isIndent
  · obtain ⟨text, htext⟩ := hopen
    have hround := exists_block_round n hindent text
    rwa [htext, hsplit] at hround
  · have hround := exists_line_round n hindent (Markup.startsWith_dropWhile isIndent source) hopen
      (by rwa [hsplit])
    rwa [hsplit] at hround

theorem cuts_ofSource (n : Nat) (source : Text) : Cuts n source (ofSource n source) := by
  induction hlen : source.length using Nat.strong_induction_on generalizing n source with
  | _ len ih =>
    subst hlen
    by_cases hne : source = []
    · rw [hne, ofSource_nil]
      exact .finish n
    · obtain ⟨read, next, p?, rfl, hround⟩ := exists_round n hne
      rw [hround.ofSource_eq]
      refine .round hround (ih next.length ?_ _ _ rfl)
      have hpos := List.length_pos_iff.2 hround.ne_nil
      rw [List.length_append]
      omega

theorem cuts_iff {n : Nat} {source : Text} {ps : List Piece} :
    Cuts n source ps ↔ ofSource n source = ps := by
  constructor
  · intro h
    induction h with
    | finish n => exact ofSource_nil n
    | round hround _ ih => rw [hround.ofSource_eq, ih]
  · rintro rfl
    exact cuts_ofSource n source

end Piece

end DocComment
