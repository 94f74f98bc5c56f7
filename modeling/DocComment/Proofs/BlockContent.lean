import DocComment.Proofs.BlockHtml
import DocComment.Proofs.HtmlGrammar
import DocComment.Proofs.NormalText

/-!
# Blocks that show something

A paragraph always has nodes in it. A run of indented lines has characters to show unless it is
white space as a whole, because neither trimming nor taking the common indentation away reaches
other characters (`Text.white_reindent_iff`). So all blocks show something if and only if the runs
are more than white space (`Node.hasContent_children_iff`).

The lines of a normal text are trimmed, so an indented one has something behind its indentation. But
these are lines cut at line feeds, and runs are made of lines cut at returns as well. The two are
the same if there is no return in the normal text (`Line.map_content_ofText`). Between two returns a
line can be white space alone, and then its block is empty.
-/

namespace DocComment

namespace Text

theorem white_append_iff {t u : Text} : White (t ++ u) ↔ White t ∧ White u := List.forall_mem_append

theorem white_trimEnd_iff {t : Text} : White (trimEnd t) ↔ White t := by
  obtain ⟨tail, htail, ht⟩ := exists_trimEnd t
  constructor
  · intro h
    rw [ht]
    exact h.append htail
  · intro h c hc
    exact h c ((List.rdropWhile_prefix isWhite t).subset hc)

theorem white_unlines_iff {ls : List Text} : White (unlines ls) ↔ ∀ l ∈ ls, White l := by
  induction ls with
  | nil => decide
  | cons l ls ih =>
    by_cases hls : ls = []
    · simp [hls]
    · have hbreak : '\n' :: unlines ls = ['\n'] ++ unlines ls := rfl
      rw [unlines_cons l hls, hbreak, white_append_iff, white_append_iff, ih,
        List.forall_mem_cons, and_iff_right (by decide : White ['\n'])]

/-- Only blank characters are taken away. -/
theorem white_outdent_iff {n : Nat} {l : Text} : White (outdent n l) ↔ White l := by
  rw [outdent]
  split
  · next h =>
    have htake : White (l.take n) := fun c hc =>
      isWhite_of_isBlank (List.all_eq_true.1 h.2 c hc)
    conv_rhs => rw [← List.take_append_drop n l, white_append_iff, and_iff_right htake]
  · rfl

theorem white_reindent_iff {t : Text} : White (reindent t) ↔ White t := by
  rw [reindent]
  split
  · rfl
  · rw [white_unlines_iff, List.forall_mem_map]
    simp only [white_outdent_iff]
    rw [← white_unlines_iff, unlines_lines]

end Text

/-! ### Lines -/

/-- Without returns, lines are cut at line feeds only. -/
theorem Line.map_content_ofText {t : Text} (h : '\r' ∉ t) :
    (ofText t).map content = Text.lines t := by
  induction t with
  | nil => rfl
  | cons c t ih =>
    obtain ⟨hc, ht⟩ := not_or.1 (List.mem_cons.not.1 h)
    by_cases hnewline : c = '\n'
    · subst hnewline
      rw [ofText_break (t := '\n' :: t) rfl, Text.lines_newline, List.map_cons]
      exact congrArg ([] :: ·) (ih ht)
    · have hnot : isNewline c = false := by simp [isNewline, hnewline, Ne.symm hc]
      obtain ⟨l, ls, hls, -⟩ := exists_ofText t
      rw [ofText_char hnot, Text.lines_cons hnewline, ← ih ht, hls]
      rfl

namespace Block

theorem exists_line_of_indented {n : Nat} {ls : List Line} {b : Block} (hb : b ∈ ofLines n ls)
    (hkind : b.kind = .indented) : ∃ l ∈ ls, l.kind = .indented ∧ l.content <+: b.text := by
  fun_induction ofLines n ls with
  | case1 => cases hb
  | case2 n l ls hl ih =>
    obtain ⟨m, hm, hindented⟩ := ih hb
    exact ⟨m, List.mem_cons_of_mem l hm, hindented⟩
  | case3 n l ls hl run ih =>
    rcases List.mem_cons.1 hb with rfl | hb
    · refine ⟨l, List.mem_cons_self, hl, ?_⟩
      show l.content <+: l.content ++ l.brk ++ _
      rw [List.append_assoc]
      exact List.prefix_append _ _
    · obtain ⟨m, hm, hindented⟩ := ih hb
      exact ⟨m, List.mem_cons_of_mem l ((List.dropWhile_suffix _).subset hm), hindented⟩
  | case4 n l ls hl run rest ih =>
    rcases List.mem_cons.1 hb with rfl | hb
    · cases hkind
    · obtain ⟨m, hm, hindented⟩ := ih hb
      exact ⟨m, List.mem_cons_of_mem l ((List.dropWhile_suffix _).subset hm), hindented⟩

/-- Trimmed lines make runs that show something, if the two ways to cut lines agree. -/
theorem not_white_of_indented {t : Text} (hreturn : '\r' ∉ t)
    (htrimmed : ∀ l ∈ Text.lines t, Text.Trimmed l) {b : Block} (hb : b ∈ ofText t)
    (hkind : b.kind = .indented) : ¬ Text.White b.text := by
  obtain ⟨l, hl, hindented, u, hu⟩ := exists_line_of_indented hb hkind
  have hmem : l.content ∈ Text.lines t := by
    rw [← Line.map_content_ofText hreturn]
    exact List.mem_map_of_mem hl
  have hne : l.content ≠ [] := by
    intro hnil
    rw [Line.kind, hnil] at hindented
    cases hindented
  intro hwhite
  rw [← hu, Text.white_append_iff] at hwhite
  exact (htrimmed _ hmem).not_white hne hwhite.1

end Block

/-! ### Nodes -/

namespace Node

/-- A block shows something. -/
@[mk_iff] structure HasContent (n : Node) : Prop where
  paragraph : n.kind = .paragraph → n.children ≠ []
  preformatted : n.kind = .preformatted → ∃ c ∈ n.data, isWhite c = false

instance (n : Node) : Decidable n.HasContent :=
  decidable_of_iff ((n.kind = .paragraph → n.children.isEmpty = false) ∧
      (n.kind = .preformatted → n.data.any (!isWhite ·) = true))
    (by simp [hasContent_iff])

theorem hasContent_of_mem_paragraph {pos : UInt32} {ts : List Token} {n : Node}
    (h : n ∈ paragraph pos ts) : n.HasContent := by
  unfold paragraph at h
  split at h
  · cases h
  · next hts =>
    rw [List.mem_singleton.1 h]
    obtain ⟨t, us, rfl⟩ := List.exists_cons_of_ne_nil (by simpa using hts)
    exact ⟨fun _ => inlines_ne_nil t us, fun hkind => by cases hkind⟩

theorem hasContent_preformatted_iff (pos : UInt32) (t : Text) :
    (leaf .preformatted pos (Text.reindent (Text.trimEnd t))).HasContent ↔ ¬ Text.White t := by
  have hexists : (∃ c ∈ Text.reindent (Text.trimEnd t), isWhite c = false) ↔ ¬ Text.White t := by
    rw [← Text.white_trimEnd_iff, ← Text.white_reindent_iff, Text.White]
    simp
  rw [← hexists]
  refine ⟨fun h => h.preformatted rfl, fun h => ⟨fun hkind => ?_, fun _ => h⟩⟩
  cases hkind

end Node

namespace Block

theorem hasContent_nodes_iff (b : Block) :
    (∀ n ∈ b.nodes, n.HasContent) ↔ (b.kind = .indented → ¬ Text.White b.text) := by
  obtain ⟨kind, n, t⟩ := b
  cases kind with
  | indented =>
    rw [nodes_indented, List.forall_mem_singleton, Node.hasContent_preformatted_iff]
    exact ⟨fun h _ => h, fun h => h rfl⟩
  | paragraph =>
    rw [nodes_paragraph]
    refine ⟨fun _ h => ?_, fun _ m hm => Node.hasContent_of_mem_paragraph hm⟩
    cases h

end Block

theorem Node.hasContent_children_iff (t : Text) :
    (∀ n ∈ (ofText t).children, n.HasContent) ↔
      ∀ b ∈ Block.ofText t, b.kind = .indented → ¬ Text.White b.text := by
  rw [children_ofText]
  simp only [List.forall_mem_flatMap, Block.hasContent_nodes_iff]

theorem Node.children_ne_nil_of_mem {t : Text} {n : Node} (hn : n ∈ (ofText t).children)
    (hkind : n.kind = .paragraph) : n.children ≠ [] := by
  rw [children_ofText] at hn
  obtain ⟨⟨kind, start, text⟩, -, hn⟩ := List.mem_flatMap.1 hn
  cases kind with
  | indented =>
    rw [Block.nodes_indented] at hn
    obtain rfl := List.mem_singleton.1 hn
    cases hkind
  | paragraph =>
    rw [Block.nodes_paragraph] at hn
    exact (hasContent_of_mem_paragraph hn).paragraph hkind

/-! ### HTML -/

namespace Html
open Node (inlines ofInline markerKind?)

/-- The HTML of a block in which something is enclosed. -/
inductive IsFilled : Text → Prop
  | paragraph {t : Text} : t ≠ [] → IsFilled (enclose "<p>" t "</p>\n")
  | preformatted {t : Text} : ¬ Text.White t → IsFilled (enclose "<pre><code>" t "</code></pre>\n")

theorem entity_cases (c : Char) : entity c = [c] ∨ ∃ t, entity c = '&' :: t := by
  unfold entity
  split
  all_goals first | exact .inr ⟨_, rfl⟩ | exact .inl rfl

theorem not_white_escape {t : Text} (h : ∃ c ∈ t, isWhite c = false) : ¬ Text.White (escape t) := by
  obtain ⟨c, hc, hwhite⟩ := h
  intro hescape
  rw [escape_eq_flatMap] at hescape
  have hentity : Text.White (entity c) := fun d hd => hescape d (List.mem_flatMap.2 ⟨c, hc, hd⟩)
  rcases entity_cases c with heq | ⟨u, heq⟩ <;> rw [heq] at hentity
  · rw [hentity c List.mem_cons_self] at hwhite
    cases hwhite
  · exact absurd (hentity '&' List.mem_cons_self) (by decide)

theorem escape_ne_nil {t : Text} (h : t ≠ []) : escape t ≠ [] := by
  obtain ⟨c, u, rfl⟩ := List.exists_cons_of_ne_nil h
  rw [escape_eq_flatMap, List.flatMap_cons]
  rcases entity_cases c with heq | ⟨v, heq⟩ <;> simp [heq]

theorem render_ofInline_ne_nil {t : Token} (h : t.value ≠ []) : render (ofInline t) ≠ [] := by
  obtain ⟨kind, value, span⟩ := t
  have hescape : escape value ≠ [] := escape_ne_nil h
  cases kind with
  | code => simp [ofInline, Node.leaf, render, enclose]
  | url => simp [ofInline, render, enclose]
  | link => simp [ofInline, render, enclose]
  | _ => exact hescape

/-- Every inline token is seen in the HTML. -/
theorem renderAll_inlines_ne_nil {t : Token} {ts : List Token} (h : t.value ≠ []) :
    renderAll (inlines (t :: ts)) ≠ [] := by
  rw [inlines]
  split
  · exact List.append_ne_nil_of_left_ne_nil (render_ofInline_ne_nil h) _
  · next kind hkind =>
    have hkinds : kind = .emphasis ∨ kind = .strong := by
      cases htk : t.kind <;> rw [htk] at hkind <;> cases hkind
      · exact .inl rfl
      · exact .inr rfl
    split
    · refine List.append_ne_nil_of_left_ne_nil ?_ _
      rcases hkinds with rfl | rfl <;> simp [Node.branch, render, enclose]
    · refine List.append_ne_nil_of_left_ne_nil (escape_ne_nil ?_) _
      rcases hkinds with rfl | rfl <;> decide

theorem isFilled_of_mem_nodes {b : Block} (htokens : ∀ t ∈ b.inlineTokens, t.value ≠ []) {n : Node}
    (hn : n ∈ b.nodes) (hcontent : n.HasContent) : IsFilled (render n) := by
  obtain ⟨kind, start, text⟩ := b
  cases kind with
  | indented =>
    rw [Block.nodes_indented] at hn
    obtain rfl := List.mem_singleton.1 hn
    exact .preformatted (not_white_escape (hcontent.preformatted rfl))
  | paragraph =>
    rw [Block.nodes_paragraph, Node.paragraph] at hn
    split at hn
    · cases hn
    · next hts =>
      obtain rfl := List.mem_singleton.1 hn
      obtain ⟨t, ts, hts⟩ := List.exists_cons_of_ne_nil (by simpa using hts)
      refine .paragraph ?_
      rw [hts]
      refine renderAll_inlines_ne_nil (htokens t ?_)
      show t ∈ Token.place start (Prose.lexemes false [] text)
      rw [hts]
      exact List.mem_cons_self

theorem isFilled_of_mem_children {t : Text} {n : Node} (hn : n ∈ (Node.ofText t).children)
    (hcontent : n.HasContent) : IsFilled (render n) := by
  rw [Node.children_ofText] at hn
  obtain ⟨b, hb, hn⟩ := List.mem_flatMap.1 hn
  refine isFilled_of_mem_nodes (fun u hu => ?_) hn hcontent
  have hscan : u ∈ Token.scan t := by
    rw [Token.scan_eq_layout, Block.layout]
    exact List.mem_append_left _ (List.mem_flatMap.2 ⟨b, hb, List.mem_cons_of_mem _ hu⟩)
  exact ((Token.stream_scan t).standsAt (.self t) hscan).1.ne_nil (b.isInline_inlineTokens u hu)

theorem renderAll_eq_flatMap (ns : List Node) : renderAll ns = ns.flatMap render := by
  induction ns with
  | nil => rfl
  | cons n ns ih => rw [renderAll, ih, List.flatMap_cons]

end Html

namespace Comment

theorem toHtml_eq_flatMap_render (comments : List Text) :
    toHtml comments = (toTree comments).children.flatMap Html.render := by
  rw [toHtml_eq, ← Html.render_ofText, ← Html.renderAll_eq_flatMap]
  rfl

/-- The blocks of a comment show something if no run of indented lines is white space alone, and so
they do if the normal text has no return. Their HTML is never empty then. -/
theorem hasContent_toTree (comments : List Text) :
    (∀ b ∈ (toTree comments).children, b.kind = .paragraph → b.children ≠ []) ∧
    ((∀ b ∈ (toTree comments).children, b.HasContent) ↔
      ∀ run ∈ Block.ofText (normalize comments), run.kind = .indented → ¬ Text.White run.text) ∧
    ('\r' ∉ normalize comments → ∀ b ∈ (toTree comments).children, b.HasContent) ∧
    (∀ b ∈ (toTree comments).children, b.HasContent → Html.IsFilled (Html.render b)) ∧
    toHtml comments = (toTree comments).children.flatMap Html.render := by
  have hiff := Node.hasContent_children_iff (normalize comments)
  refine ⟨fun b => Node.children_ne_nil_of_mem, hiff, fun hreturn => hiff.2 fun run hrun => ?_,
    fun b => Html.isFilled_of_mem_children, toHtml_eq_flatMap_render comments⟩
  exact Block.not_white_of_indented hreturn (isNormal_normalize comments).trimmed hrun

theorem hasContent_toTree_indented :
    '\r' ∉ normalize ["// a".toList, "//   b".toList, "//  \u00a0".toList] ∧
      ∀ b ∈ (toTree ["// a".toList, "//   b".toList, "//  \u00a0".toList]).children, b.HasContent :=
  have h : '\r' ∉ normalize ["// a".toList, "//   b".toList, "//  \u00a0".toList] := by decide
  ⟨h, (hasContent_toTree _).2.2.1 h⟩

/-- A run between two returns is not trimmed, and its block is empty. -/
theorem hasContent_toTree_fails_between_returns :
    ¬ ∀ comments : List Text, ∀ b ∈ (toTree comments).children, b.HasContent := by
  intro h
  have hcontent := h ["// a\r \rb".toList]
  revert hcontent
  decide +kernel

end Comment

end DocComment
