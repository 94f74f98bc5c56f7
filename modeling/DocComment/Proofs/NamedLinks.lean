import DocComment.Proofs.BlockHtml
import DocComment.Proofs.InlineMarkup
import DocComment.Proofs.TreeShape

/-!
# Named links and their nodes

A scanner takes the longest named link at a bracket (`Url.linkLength?_eq_some_iff`), and the tree
takes the link apart again by other means: at the first `](`, and at the parenthesis in the last
place. A name has no bracket in it, so both agree on the name and the target, although the target may
have parentheses (`Node.anchorOf_ofInline`). No token is lost on the way: the node of every token
that is not a marker is in the tree, below any emphasis around it (`Node.ofInline_mem_ofText`).
-/

namespace DocComment

namespace Node

/-- An anchor that shows the name of a named link and leads to its target. -/
structure AnchorOf (t : Token) (n : Node) : Prop where
  kind : n.kind = .anchor
  pos : n.pos = t.start
  name : Url.IsName n.data
  target : Url.IsUrl n.href
  value : Url.linkText n.data n.href = t.value
  href_ne : n.href ≠ n.data
  scheme : ∃ s ∈ Url.schemes, s ++ "://".toList <+: n.href

theorem anchorOf_ofInline {t : Token} (hkind : t.kind = .link) (h : Url.IsLink t.value) :
    AnchorOf t (ofInline t) := by
  obtain ⟨name, url, hvalue, hname, hurl⟩ := h
  rw [ofInline_link hkind hname hvalue]
  refine ⟨rfl, rfl, hname, hurl, hvalue.symm, (hname.ne_of_isUrl hurl).symm, ?_⟩
  obtain ⟨s, hs, host, slash, path, rfl, -⟩ := hurl
  exact ⟨s, hs, host ++ slash ++ path, by simp⟩

/-! ### The nodes of tokens -/

theorem ofInline_mem_inlines {ts : List Token} {t : Token} (h : t ∈ ts)
    (hmarker : markerKind? t.kind = none) : ofInline t ∈ descendantsAll (inlines ts) := by
  fun_induction inlines ts with
  | case1 => cases h
  | case2 u ts hu ih =>
    rcases List.mem_cons.1 h with rfl | h
    · exact List.mem_cons_self
    · exact List.mem_cons_of_mem _ (List.mem_append_right _ (ih h))
  | case3 u ts kind hu body rest hcut ihbody ihrest =>
    obtain ⟨w, rfl, hw, -⟩ := cut?_eq_some_iff.1 hcut
    -- the two markers make no leaf
    have hne : ∀ v : Token, markerKind? v.kind = some kind → t ≠ v := by
      rintro v hv rfl
      rw [hmarker] at hv
      cases hv
    rcases List.mem_cons.1 h with rfl | h
    · exact absurd rfl (hne t hu)
    rcases List.mem_append.1 h with h | h
    · exact List.mem_cons_of_mem _ (List.mem_append_left _ (ihbody h))
    rcases List.mem_cons.1 h with rfl | h
    · exact absurd rfl (hne t hw)
    · exact List.mem_cons_of_mem _ (List.mem_append_right _ (ihrest h))
  | case4 u ts kind hu hcut ih =>
    rcases List.mem_cons.1 h with rfl | h
    · rw [hmarker] at hu
      cases hu
    · exact List.mem_cons_of_mem _ (List.mem_append_right _ (ih h))

theorem mem_descendantsAll_of_mem {ns : List Node} {n m : Node} (h : n ∈ ns)
    (hm : m ∈ n.descendants) : m ∈ descendantsAll ns := by
  induction ns with
  | nil => cases h
  | cons k ns ih =>
    rcases List.mem_cons.1 h with rfl | h
    · exact List.mem_cons_of_mem _ (List.mem_append_left _ hm)
    · exact List.mem_cons_of_mem _ (List.mem_append_right _ (ih h))

/-- The tree of a text has the nodes of all inline tokens that are not markers. -/
theorem ofInline_mem_ofText {text : Text} {t : Token} (h : t ∈ Token.scan text)
    (hinline : t.kind.isInline = true) (hmarker : markerKind? t.kind = none) :
    ofInline t ∈ (ofText text).descendants := by
  rw [Token.scan_eq_layout] at h
  rcases List.mem_append.1 h with h | h
  · obtain ⟨b, hb, h⟩ := List.mem_flatMap.1 h
    rcases List.mem_cons.1 h with rfl | h
    · rw [b.isInline_token] at hinline
      cases hinline
    obtain ⟨kind, n, v⟩ := b
    cases kind with
    | indented => cases h
    | paragraph =>
      have hnode : branch .paragraph n.toUInt32 (inlines (Token.place n (Prose.lexemes false [] v))) ∈
          (ofText text).children := by
        rw [children_ofText]
        refine List.mem_flatMap.2 ⟨_, hb, ?_⟩
        rw [Block.nodes_paragraph, paragraph, if_neg]
        · exact List.mem_cons_self
        · rw [List.isEmpty_iff]
          exact List.ne_nil_of_mem h
      rw [descendants_eq]
      exact mem_descendantsAll_of_mem hnode (ofInline_mem_inlines h hmarker)
  · rw [List.mem_singleton.1 h] at hinline
    cases hinline

end Node

namespace Url

/-- A named link is found if there is one, and the one that is found is the longest. Its token becomes
an anchor in the tree, with the name and the target that the link is written with. -/
theorem longest_linkLength? (text : Text) :
    (∀ k n, linkLength? (text.drop k) = some n ↔
      (∃ u, u <+: text.drop k ∧ IsLink u ∧ u.length = n) ∧
        ∀ u, u <+: text.drop k → IsLink u → u.length ≤ n) ∧
    (∀ k, linkLength? (text.drop k) = none ↔ ∀ u, u <+: text.drop k → ¬ IsLink u) ∧
    ∀ t ∈ Token.scan text, t.kind = .link →
      (∃ before after, text = before ++ (t.value ++ after) ∧
        t.span = .ofText (Text.size before).toUInt32 t.value ∧
        linkLength? (t.value ++ after) = some t.value.length) ∧
      ∃ n ∈ (Node.ofText text).descendants, n = Node.ofInline t ∧ n.AnchorOf t := by
  refine ⟨fun k n => linkLength?_eq_some_iff, fun k => linkLength?_eq_none_iff, ?_⟩
  intro t ht hkind
  obtain ⟨before, after, htext, hspan, hmax⟩ := Token.maximalIn_scan ht
  rw [hkind] at hmax
  obtain ⟨hlink, hlongest⟩ := hmax
  refine ⟨⟨before, after, htext, hspan, ?_⟩, Node.ofInline t, ?_, rfl, ?_⟩
  · exact linkLength?_eq_some_iff.2 ⟨⟨t.value, List.prefix_append _ _, hlink, rfl⟩, hlongest⟩
  · exact Node.ofInline_mem_ofText ht (by rw [hkind]; rfl) (by rw [hkind]; rfl)
  · exact Node.anchorOf_ofInline hkind hlink

/-- Two parentheses could close the link, and the first of them is part of the target. -/
theorem longest_linkLength?_parentheses :
    Token.ofText .link "[a b](http://h/x)y)".toList 1 ∈ Token.scan "*[a b](http://h/x)y) z*".toList ∧
      linkText "a b".toList "http://h/x)y".toList = "[a b](http://h/x)y)".toList ∧
      ∃ n ∈ (Node.ofText "*[a b](http://h/x)y) z*".toList).descendants,
        n.AnchorOf (Token.ofText .link "[a b](http://h/x)y)".toList 1) := by
  have hmem : Token.ofText .link "[a b](http://h/x)y)".toList 1 ∈
      Token.scan "*[a b](http://h/x)y) z*".toList := by decide +kernel
  obtain ⟨n, hn, -, hanchor⟩ := ((longest_linkLength? _).2.2 _ hmem rfl).2
  exact ⟨hmem, rfl, n, hn, hanchor⟩

end Url

end DocComment
