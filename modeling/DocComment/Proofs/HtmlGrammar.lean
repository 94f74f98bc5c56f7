import DocComment.Document
import DocComment.Proofs.InlineSource
import DocComment.Proofs.ScannerSteps

/-!
# The language of the HTML

`Html.IsDocument` is the language of blocks: paragraphs and preformatted text, with nested emphasis,
code spans and links, in which all else is escaped (`Html.IsEscaped`) and every link leads to a URL
(`Url.IsUrl`). The HTML of every text is in it (`Html.isDocument_toHtml`), so no text brings in a
tag, an attribute or a link of its own.

Of the tokens only their lexemes matter: URLs and named links are what their patterns match, and the
payloads of all other nodes are harmless once they are escaped.
-/

namespace DocComment.Html

def entities : List Text := ["&amp;", "&lt;", "&gt;", "&quot;", "&#39;"].map String.toList

/-- A text without special characters but for ampersands, each of which begins an entity. -/
structure IsEscaped (t : Text) : Prop where
  not_mem : ∀ c ∈ ['<', '>', '"', '\''], c ∉ t
  entity : ∀ before after, t = before ++ '&' :: after → ∃ e ∈ entities, e <+: '&' :: after

namespace IsEscaped

theorem nil : IsEscaped [] := ⟨fun _ _ => List.not_mem_nil, fun _ _ h => by simp at h⟩

theorem append {t u : Text} (ht : IsEscaped t) (hu : IsEscaped u) : IsEscaped (t ++ u) := by
  refine ⟨fun c hc hmem => ?_, fun before after h => ?_⟩
  · rcases List.mem_append.1 hmem with hmem | hmem
    · exact ht.not_mem c hc hmem
    · exact hu.not_mem c hc hmem
  · rcases Text.exists_of_append_eq h with ⟨w, rfl⟩ | ⟨w, rfl, rfl⟩
    · obtain ⟨e, he, hpre⟩ := ht.entity before w rfl
      have hafter : after = w ++ u := by simpa using h.symm
      rw [hafter, ← List.cons_append]
      exact ⟨e, he, hpre.trans (List.prefix_append _ _)⟩
    · exact hu.entity w after rfl

theorem of_mem_entities {e : Text} (he : e ∈ entities) : IsEscaped e := by
  have hspecial : ∀ e ∈ entities, ∀ c ∈ ['<', '>', '"', '\''], c ∉ e := by simp [entities]
  have htail : ∀ e ∈ entities, '&' ∉ e.tail := by simp [entities]
  refine ⟨hspecial e he, fun before after h => ?_⟩
  cases before with
  | nil =>
    rw [List.nil_append] at h
    exact ⟨e, he, h ▸ List.prefix_rfl⟩
  | cons c before =>
    refine absurd ?_ (htail e he)
    rw [h]
    simp

theorem singleton {c : Char} (hc : isSpecial c = false) : IsEscaped [c] := by
  have hne : ∀ d, isSpecial d = true → d ∉ [c] := by
    intro d hd hmem
    rw [List.mem_singleton.1 hmem, hc] at hd
    cases hd
  have hspecial : ∀ d ∈ ['<', '>', '"', '\''], isSpecial d = true := by simp [isSpecial]
  refine ⟨fun d hd => hne d (hspecial d hd), fun before after h => ?_⟩
  refine absurd ?_ (hne '&' rfl)
  rw [h]
  simp

end IsEscaped

theorem entity_eq_singleton {c : Char} (hc : isSpecial c = false) : entity c = [c] := by
  unfold entity
  split
  · cases hc
  · cases hc
  · cases hc
  · cases hc
  · cases hc
  · rfl

theorem cases_of_isSpecial {c : Char} (h : isSpecial c = true) :
    c = '&' ∨ c = '<' ∨ c = '>' ∨ c = '"' ∨ c = '\'' := by
  simpa only [isSpecial, Bool.or_eq_true, beq_iff_eq, or_assoc] using h

theorem entity_mem_entities {c : Char} (hc : isSpecial c = true) : entity c ∈ entities := by
  rcases cases_of_isSpecial hc with rfl | rfl | rfl | rfl | rfl <;> decide

theorem isEscaped_flatMap_entity (t : Text) : IsEscaped (t.flatMap entity) := by
  induction t with
  | nil => exact .nil
  | cons c t ih =>
    rw [List.flatMap_cons]
    cases hc : isSpecial c with
    | true => exact (IsEscaped.of_mem_entities (entity_mem_entities hc)).append ih
    | false =>
      rw [entity_eq_singleton hc]
      exact (IsEscaped.singleton hc).append ih

theorem flatMap_entity_eq_self {t : Text} (h : ∀ c ∈ t, isSpecial c = false) :
    t.flatMap entity = t := by
  induction t with
  | nil => rfl
  | cons c t ih =>
    obtain ⟨hc, ht⟩ := List.forall_mem_cons.1 h
    rw [List.flatMap_cons, entity_eq_singleton hc, ih ht, List.singleton_append]

theorem flatMap_entity_takeWhile (t : Text) :
    (t.takeWhile fun c => !isSpecial c).flatMap entity = t.takeWhile fun c => !isSpecial c := by
  refine flatMap_entity_eq_self fun c hc => ?_
  simpa using List.mem_takeWhile_imp hc

/-- Escaping run by run is escaping character by character. -/
theorem escape_eq_flatMap (t : Text) : escape t = t.flatMap entity := by
  induction hlen : t.length using Nat.strong_induction_on generalizing t with
  | _ len ih =>
    have ht := List.takeWhile_append_dropWhile (p := fun c => !isSpecial c) (l := t)
    rw [escape]
    split
    · next hdrop =>
      rw [hdrop, List.append_nil] at ht
      conv_rhs => rw [← ht, flatMap_entity_takeWhile]
    · next c rest hdrop =>
      rw [hdrop] at ht
      have hlt : rest.length < len := by
        rw [← hlen, ← ht, List.length_append, List.length_cons]
        omega
      rw [ih rest.length hlt rest rfl]
      conv_rhs => rw [← ht, List.flatMap_append, flatMap_entity_takeWhile, List.flatMap_cons]
      rw [List.append_assoc]

theorem escape_append (s t : Text) : escape (s ++ t) = escape s ++ escape t := by
  simp only [escape_eq_flatMap, List.flatMap_append]

theorem isEscaped_escape (t : Text) : IsEscaped (escape t) := by
  rw [escape_eq_flatMap]
  exact isEscaped_flatMap_entity t

/-- Any number of texts of a class, one behind the other. -/
inductive Many (P : Text → Prop) : Text → Prop
  | nil : Many P []
  | cons {t u : Text} : P t → Many P u → Many P (t ++ u)

inductive IsInline : Text → Prop
  | escaped {t : Text} : IsEscaped t → IsInline t
  | emphasis {t : Text} : Many IsInline t → IsInline ("<em>".toList ++ t ++ "</em>".toList)
  | strong {t : Text} : Many IsInline t → IsInline ("<strong>".toList ++ t ++ "</strong>".toList)
  | code {t : Text} : IsEscaped t → IsInline ("<code>".toList ++ t ++ "</code>".toList)
  | anchor {url t : Text} : Url.IsUrl url → IsEscaped t →
      IsInline ("<a href=\"".toList ++ url.flatMap entity ++ "\">".toList ++ t ++ "</a>".toList)

inductive IsBlock : Text → Prop
  | paragraph {t : Text} : Many IsInline t → IsBlock ("<p>".toList ++ t ++ "</p>\n".toList)
  | preformatted {t : Text} : IsEscaped t →
      IsBlock ("<pre><code>".toList ++ t ++ "</code></pre>\n".toList)

def IsDocument : Text → Prop := Many IsBlock

/-! ### Trees -/

open Node (inlines blocks ofInline markerKind? cut?)

theorem isInline_render_ofInline {t : Token} (h : Token.Lexeme t.kind t.value) :
    IsInline (render (ofInline t)) := by
  obtain ⟨kind, value, span⟩ := t
  have hescaped : IsInline (escape value) := .escaped (isEscaped_escape value)
  cases kind with
  | code => exact .code (isEscaped_escape _)
  | url =>
    have hanchor := IsInline.anchor h (isEscaped_escape value)
    rw [← escape_eq_flatMap] at hanchor
    simpa [ofInline, render, enclose] using hanchor
  | link =>
    obtain ⟨name, url, rfl, hname, hurl⟩ := h
    have hanchor := IsInline.anchor hurl (isEscaped_escape name)
    rw [← escape_eq_flatMap] at hanchor
    simpa [ofInline, Node.splitLink_linkText hname, render, enclose] using hanchor
  | text => exact hescaped
  | star => exact hescaped
  | doubleStar => exact hescaped
  | paragraph => exact hescaped
  | indented => exact hescaped
  | finish => exact hescaped

theorem isInline_render_branch {tk : Token.Kind} {kind : Node.Kind}
    (h : markerKind? tk = some kind) (pos : UInt32) {ns : List Node}
    (hns : Many IsInline (renderAll ns)) : IsInline (render (.branch kind pos ns)) := by
  cases tk with
  | star =>
    cases h
    exact .emphasis hns
  | doubleStar =>
    cases h
    exact .strong hns
  | _ => cases h

theorem many_renderAll_inlines {ts : List Token} (h : ∀ t ∈ ts, Token.Lexeme t.kind t.value) :
    Many IsInline (renderAll (inlines ts)) := by
  fun_induction inlines ts with
  | case1 => exact .nil
  | case2 t ts ht ih =>
    obtain ⟨ht, hts⟩ := List.forall_mem_cons.1 h
    exact .cons (isInline_render_ofInline ht) (ih hts)
  | case3 t ts kind ht body rest hcut ihbody ihrest =>
    obtain ⟨u, rfl, -⟩ := Node.cut?_eq_some_iff.1 hcut
    have hbody := ihbody fun w hw => h w (by simp [hw])
    have hrest := ihrest fun w hw => h w (by simp [hw])
    exact .cons (isInline_render_branch ht t.start hbody) hrest
  | case4 t ts kind ht hcut ih =>
    obtain ⟨-, hts⟩ := List.forall_mem_cons.1 h
    exact .cons (.escaped (isEscaped_escape _)) (ih hts)

theorem isDocument_renderAll_paragraph {ts : List Token} {ns : List Node} (pos : UInt32)
    (hts : ∀ t ∈ ts, Token.Lexeme t.kind t.value) (hns : IsDocument (renderAll ns)) :
    IsDocument (renderAll (Node.paragraph pos ts ++ ns)) := by
  unfold Node.paragraph
  split
  · exact hns
  · exact .cons (.paragraph (many_renderAll_inlines hts)) hns

theorem isDocument_renderAll_blocks {ts : List Token}
    (h : ∀ t ∈ ts, Token.Lexeme t.kind t.value) : IsDocument (renderAll (blocks ts)) := by
  fun_induction blocks ts with
  | case1 => exact .nil
  | case2 t ts hkind ih =>
    obtain ⟨-, hts⟩ := List.forall_mem_cons.1 h
    exact .cons (.preformatted (isEscaped_escape _)) (ih hts)
  | case3 t ts hkind ih =>
    obtain ⟨-, hts⟩ := List.forall_mem_cons.1 h
    refine isDocument_renderAll_paragraph _ (fun u hu => ?_) (ih fun u hu => ?_)
    · exact hts u ((List.takeWhile_prefix _).subset hu)
    · exact hts u ((List.dropWhile_suffix _).subset hu)
  | case4 t ts _ _ ih =>
    obtain ⟨ht, hts⟩ := List.forall_mem_cons.1 h
    refine isDocument_renderAll_paragraph _ ?_ (ih fun u hu => ?_)
    · refine List.forall_mem_cons.2 ⟨ht, fun u hu => ?_⟩
      exact hts u ((List.takeWhile_prefix _).subset hu)
    · exact hts u ((List.dropWhile_suffix _).subset hu)

theorem isDocument_render_ofText (text : Text) : IsDocument (render (.ofText text)) := by
  have htext := Text.StandsAt.self text
  have hlexeme : ∀ t ∈ Token.scan text, Token.Lexeme t.kind t.value :=
    fun t ht => ((Token.stream_scan text).standsAt htext ht).1
  show IsDocument (renderAll (Node.ofTokens (Token.scan text)).children)
  rw [Node.children_ofTokens]
  exact isDocument_renderAll_blocks fun t ht => hlexeme t ((List.takeWhile_prefix _).subset ht)

/-- The HTML of every list of raw comments, and of every text, is a document. -/
theorem isDocument_toHtml :
    (∀ comments : List Text, IsDocument (Comment.toHtml comments)) ∧
      ∀ text : Text, IsDocument (render (.ofText text)) := by
  refine ⟨fun comments => ?_, isDocument_render_ofText⟩
  unfold Comment.toHtml
  split
  · exact .nil
  · exact isDocument_render_ofText _

end DocComment.Html
