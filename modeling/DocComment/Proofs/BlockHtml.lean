import DocComment.Document
import DocComment.Proofs.BlockStructure
import DocComment.Proofs.Openers

/-!
# The HTML of a text, block by block

HTML shows no offsets, so the HTML of inline tokens does not change when the tokens move
(`Html.renderAll_inlines_bare`). `Block.html` is therefore a function of the kind and the text of a
block alone (`Block.html_start`), and the HTML of a text is that of its blocks
(`Html.render_ofText`).
-/

namespace DocComment

/-- The token without its place. -/
def Token.bare (t : Token) : Token := { t with span := ⟨0, 0⟩ }

theorem Token.map_bare_place (n m : Nat) (ls : List (Kind × Text)) :
    (place n ls).map bare = (place m ls).map bare := by
  induction ls generalizing n m with
  | nil => rfl
  | cons l ls ih =>
    rw [place_cons, place_cons, List.map_cons, List.map_cons, ih _ (m + Text.size l.2)]
    rfl

namespace Html
open Node (inlines blocks ofInline)

theorem renderAll_append (ns ms : List Node) :
    renderAll (ns ++ ms) = renderAll ns ++ renderAll ms := by
  induction ns with
  | nil => rfl
  | cons n ns ih => rw [List.cons_append, renderAll, renderAll, ih, List.append_assoc]

theorem render_ofInline_bare (t : Token) : render (ofInline t.bare) = render (ofInline t) := by
  obtain ⟨kind, value, span⟩ := t
  cases kind <;> rfl

theorem render_branch_congr (kind : Node.Kind) {ns ms : List Node} (pos pos' : UInt32)
    (h : renderAll ns = renderAll ms) :
    render (.branch kind pos ns) = render (.branch kind pos' ms) := by
  cases kind <;> simp [Node.branch, render, h]

theorem renderAll_inlines_bare (ts : List Token) :
    renderAll (inlines (ts.map Token.bare)) = renderAll (inlines ts) := by
  fun_induction inlines ts with
  | case1 => rw [List.map_nil, Node.inlines_nil]
  | case2 t ts hkind ih =>
    rw [List.map_cons, Node.inlines_leaf (t := t.bare) _ hkind, renderAll, renderAll, ih,
      render_ofInline_bare]
  | case3 t ts kind hkind body rest hcut ihbody ihrest =>
    obtain ⟨u, rfl, hu, hbody⟩ := Node.cut?_eq_some_iff.1 hcut
    have hbody' : ∀ w ∈ body.map Token.bare, Node.markerKind? w.kind ≠ some kind := by
      intro w hw
      obtain ⟨v, hv, rfl⟩ := List.mem_map.1 hw
      exact hbody v hv
    rw [List.map_cons, List.map_append, List.map_cons,
      Node.inlines_closed (t := t.bare) (u := u.bare) hkind hu hbody', renderAll, renderAll, ihrest,
      render_branch_congr kind _ t.start ihbody]
  | case4 t ts kind hkind hcut ih =>
    have hts : ∀ w ∈ ts.map Token.bare, Node.markerKind? w.kind ≠ some kind := by
      intro w hw
      obtain ⟨v, hv, rfl⟩ := List.mem_map.1 hw
      exact Node.cut?_eq_none_iff.1 hcut v hv
    rw [List.map_cons, Node.inlines_unclosed (t := t.bare) hkind hts, renderAll, renderAll, ih]
    rfl

theorem renderAll_paragraph_congr {ts us : List Token} (pos pos' : UInt32)
    (h : ts.map Token.bare = us.map Token.bare) :
    renderAll (Node.paragraph pos ts) = renderAll (Node.paragraph pos' us) := by
  have hinlines : renderAll (inlines ts) = renderAll (inlines us) := by
    rw [← renderAll_inlines_bare, h, renderAll_inlines_bare]
  have hempty : ts.isEmpty = us.isEmpty := by
    rw [← List.isEmpty_map, h, List.isEmpty_map]
  unfold Node.paragraph
  rw [hempty]
  split
  · rfl
  · simp only [renderAll, render_branch_congr .paragraph pos pos' hinlines]

end Html

namespace Block
open Html (renderAll render enclose escape)

/-- The nodes of a block. -/
def nodes (b : Block) : List Node := Node.blocks (b.token :: b.inlineTokens)

/-- The HTML of a block. -/
def html (b : Block) : Text := renderAll b.nodes

theorem nodes_indented (n : Nat) (t : Text) :
    nodes ⟨.indented, n, t⟩ =
      [.leaf .preformatted n.toUInt32 (Text.reindent (Text.trimEnd t))] := by
  show Node.blocks [_] = _
  rw [Node.blocks_of_indented _ rfl, Node.blocks]
  rfl

theorem nodes_paragraph (n : Nat) (t : Text) :
    nodes ⟨.paragraph, n, t⟩ =
      Node.paragraph n.toUInt32 (Token.place n (Prose.lexemes false [] t)) :=
  Node.blocks_paragraph_run rfl (isInline_inlineTokens ⟨.paragraph, n, t⟩)

theorem html_indented (n : Nat) (t : Text) :
    html ⟨.indented, n, t⟩ =
      enclose "<pre><code>" (escape (Text.reindent (Text.trimEnd t))) "</code></pre>\n" := by
  rw [html, nodes_indented]
  exact List.append_nil _

theorem html_paragraph (n : Nat) (t : Text) :
    html ⟨.paragraph, n, t⟩ =
      renderAll (Node.paragraph n.toUInt32 (Token.place n (Prose.lexemes false [] t))) := by
  rw [html, nodes_paragraph]

/-- The HTML of a block does not show where the block stands. -/
theorem html_start (kind : Kind) (n m : Nat) (t : Text) :
    html ⟨kind, n, t⟩ = html ⟨kind, m, t⟩ := by
  cases kind with
  | indented => rw [html_indented, html_indented]
  | paragraph =>
    rw [html_paragraph, html_paragraph]
    exact Html.renderAll_paragraph_congr _ _ (Token.map_bare_place n m _)

theorem blocks_tokens_append (b : Block) {ts : List Token}
    (hts : ∀ t ∈ ts.head?, t.kind.isInline = false) :
    Node.blocks (b.token :: (b.inlineTokens ++ ts)) = b.nodes ++ Node.blocks ts := by
  obtain ⟨kind, n, t⟩ := b
  cases kind with
  | indented =>
    rw [nodes_indented]
    exact Node.blocks_of_indented ts rfl
  | paragraph =>
    rw [nodes_paragraph]
    exact Node.blocks_paragraph_append rfl (isInline_inlineTokens ⟨.paragraph, n, t⟩) hts

theorem isInline_token (b : Block) : b.token.kind.isInline = false := by
  unfold token
  split <;> rfl

theorem kind_ne_finish {b : Block} {t : Token} (h : t ∈ b.token :: b.inlineTokens) :
    t.kind ≠ .finish := by
  intro hfinish
  rcases List.mem_cons.1 h with rfl | h
  · have hblock := b.isBlock_token
    rw [hfinish] at hblock
    cases hblock
  · have hinline := b.isInline_inlineTokens t h
    rw [hfinish] at hinline
    cases hinline

theorem blocks_tokens (bs : List Block) :
    Node.blocks (bs.flatMap fun b => b.token :: b.inlineTokens) = bs.flatMap nodes := by
  induction bs with
  | nil =>
    rw [List.flatMap_nil, Node.blocks]
    rfl
  | cons b bs ih =>
    have hhead : ∀ t ∈ (bs.flatMap fun b => b.token :: b.inlineTokens).head?,
        t.kind.isInline = false := by
      cases bs with
      | nil => simp
      | cons c bs =>
        rintro t ht
        obtain rfl : c.token = t := by simpa using ht
        exact c.isInline_token
    rw [List.flatMap_cons, List.flatMap_cons, List.cons_append, blocks_tokens_append b hhead, ih]

theorem renderAll_nodes (bs : List Block) : renderAll (bs.flatMap nodes) = bs.flatMap html := by
  induction bs with
  | nil => rfl
  | cons b bs ih =>
    rw [List.flatMap_cons, List.flatMap_cons, Html.renderAll_append, ih]
    rfl

end Block

/-- The nodes below the root are those of the blocks. -/
theorem Node.children_ofText (t : Text) :
    (ofText t).children = (Block.ofText t).flatMap Block.nodes := by
  have hfinish : ∀ u ∈ (Block.ofText t).flatMap (fun b => b.token :: b.inlineTokens),
      (u.kind != .finish) = true := by
    intro u hu
    obtain ⟨b, -, hu⟩ := List.mem_flatMap.1 hu
    exact bne_iff_ne.2 (Block.kind_ne_finish hu)
  rw [ofText, children_ofTokens, Token.scan_eq_layout]
  show blocks (((Block.ofText t).flatMap _ ++ [_]).takeWhile _) = _
  rw [List.takeWhile_append_of_pos hfinish, List.takeWhile_cons_of_neg (by simp [Token.ofText]),
    List.append_nil, Block.blocks_tokens]

theorem Html.render_ofText (t : Text) : render (.ofText t) = (Block.ofText t).flatMap Block.html := by
  show renderAll (Node.ofText t).children = _
  rw [Node.children_ofText, Block.renderAll_nodes]

theorem Comment.toHtml_eq (comments : List Text) :
    toHtml comments = (Block.ofText (normalize comments)).flatMap Block.html := by
  unfold toHtml
  split
  · next h =>
    rw [List.isEmpty_iff.1 h, Block.ofText, Block.cut_nil]
    rfl
  · exact Html.render_ofText _

end DocComment
