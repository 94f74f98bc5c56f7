import DocComment.Proofs.Openers
import Mathlib.Data.List.Basic

/-!
# The source of inline nodes

`Node.source` writes an inline node back as it stood in the text, and `Node.locatedAll` says where
the source of every node of a list begins. For the nodes of a run of inline tokens
(`Token.Run`) the sources are the text of the run (`Token.Run.sources_inlines`), and every node
stands at the offset where its source begins (`Token.Run.located_inlines`).
-/

namespace DocComment

theorem Text.cut?_cons {a : Char} {name : Text} (h : a ∉ name) (sep rest : Text) :
    Text.cut? (a :: sep) (name ++ (a :: sep ++ rest)) = some (name, rest) := by
  have hfound : (a :: sep).isPrefixOf? (a :: sep ++ rest) = some rest :=
    List.isPrefixOf?_eq_some_iff_append_eq.2 rfl
  induction name with
  | nil =>
    rw [List.nil_append, List.cons_append, Text.cut?, ← List.cons_append, hfound]
  | cons c name ih =>
    have hc : a ≠ c := fun hac => h (by simp [hac])
    have hnone : (a :: sep).isPrefixOf? (c :: (name ++ (a :: sep ++ rest))) = none := by
      rw [Option.eq_none_iff_forall_ne_some]
      intro found h
      exact hc (List.cons.inj (List.isPrefixOf?_eq_some_iff_append_eq.1 h)).1
    rw [List.cons_append, Text.cut?, hnone, ih (fun hn => h (List.mem_cons_of_mem _ hn))]
    rfl

theorem Text.dropEnd_append (t post : Text) : Text.dropEnd post (t ++ post) = t := by
  rw [Text.dropEnd, List.isSuffixOf?_eq_some_iff_append_eq.2 rfl]
  rfl

namespace Url

theorem not_mem_of_isName {name : Text} (h : IsName name) {c : Char} (hc : isNameChar c = false) :
    c ∉ name := fun hmem => by
  rw [h.2 c hmem] at hc
  cases hc

theorem IsUrl.colon_mem {u : Text} (h : IsUrl u) : ':' ∈ u := by
  obtain ⟨scheme, -, host, slash, path, rfl, -⟩ := h
  simp

/-- A name has no colon. -/
theorem IsName.ne_of_isUrl {name url : Text} (h : IsName name) (hurl : IsUrl url) : name ≠ url := by
  rintro rfl
  exact not_mem_of_isName h rfl hurl.colon_mem

end Url

namespace Node

theorem splitLink_linkText {name : Text} (h : Url.IsName name) (url : Text) :
    splitLink (Url.linkText name url) = (name, url) := by
  have hcut : Text.cut? "](".toList (name ++ ("](".toList ++ (url ++ [')']))) =
      some (name, url ++ [')']) :=
    Text.cut?_cons (Url.not_mem_of_isName h (by decide)) ['('] (url ++ [')'])
  have hstart : Text.dropStart ['['] (Url.linkText name url) =
      name ++ ("](".toList ++ (url ++ [')'])) := by
    have hlink : Url.linkText name url = ['['] ++ (name ++ ("](".toList ++ (url ++ [')']))) := by
      simp [Url.linkText]
    rw [hlink, Text.dropStart, List.isPrefixOf?_eq_some_iff_append_eq.2 rfl]
    rfl
  rw [splitLink, hstart]
  simp only [hcut, Text.dropEnd_append]

theorem ofInline_link {t : Token} (hkind : t.kind = .link) {name url : Text}
    (hname : Url.IsName name) (hvalue : t.value = Url.linkText name url) :
    ofInline t = { kind := .anchor, pos := t.start, data := name, href := url } := by
  simp only [ofInline, hkind, hvalue, splitLink_linkText hname]

theorem stripBackticks_append (body : Text) : stripBackticks ('`' :: body ++ ['`']) = body := by
  have hstart : ['`'].isPrefixOf? ('`' :: body ++ ['`']) = some (body ++ ['`']) :=
    List.isPrefixOf?_eq_some_iff_append_eq.2 rfl
  have hstop : ['`'].isSuffixOf? (body ++ ['`']) = some body :=
    List.isSuffixOf?_eq_some_iff_append_eq.2 rfl
  rw [stripBackticks, hstart]
  simp only [hstop, Option.getD_some]

def Kind.isInline : Kind → Bool
  | text | emphasis | strong | code | anchor => true
  | root | paragraph | preformatted => false

mutual

/-- The text that an inline node stands for. -/
def source : Node → Text
  | ⟨kind, _, data, href, children⟩ =>
    match kind with
    | .text => data
    | .code => '`' :: data ++ ['`']
    | .anchor => if data = href then data else Url.linkText data href
    | .emphasis => "*".toList ++ sources children ++ "*".toList
    | .strong => "**".toList ++ sources children ++ "**".toList
    | .root | .paragraph | .preformatted => []

def sources : List Node → Text
  | [] => []
  | n :: ns => n.source ++ sources ns

end

mutual

/-- Every node of a tree with the offset where its source begins, if that of the tree begins at
`n`. -/
def located (n : Nat) : Node → List (Node × Nat)
  | ⟨kind, pos, data, href, children⟩ =>
    (⟨kind, pos, data, href, children⟩, n) :: locatedAll (n + Text.size kind.marker) children

def locatedAll (n : Nat) : List Node → List (Node × Nat)
  | [] => []
  | m :: ms => located n m ++ locatedAll (n + Text.size m.source) ms

end

theorem source_branch {kind : Kind} {tk : Token.Kind} (h : markerKind? tk = some kind)
    (pos : UInt32) (ns : List Node) :
    (branch kind pos ns).source = kind.marker ++ sources ns ++ kind.marker := by
  cases tk <;> cases h <;> rfl

theorem source_ofInline {t : Token} (hkind : t.kind.isInline = true)
    (hmarker : markerKind? t.kind = none) (h : Token.Lexeme t.kind t.value) :
    (ofInline t).source = t.value := by
  obtain ⟨kind, value, span⟩ := t
  cases kind with
  | text => rfl
  | code =>
    obtain ⟨body, -, rfl⟩ := h
    show '`' :: stripBackticks ('`' :: body ++ ['`']) ++ ['`'] = _
    rw [stripBackticks_append]
  | url =>
    show (if value = value then value else _) = value
    rw [if_pos rfl]
  | link =>
    obtain ⟨name, url, rfl, hname, hurl⟩ := h
    rw [ofInline_link rfl hname rfl]
    show (if name = url then name else _) = _
    rw [if_neg (hname.ne_of_isUrl hurl)]
  | star => cases hmarker
  | doubleStar => cases hmarker
  | paragraph => cases hkind
  | indented => cases hkind
  | finish => cases hkind

theorem isInline_ofInline (t : Token) : (ofInline t).kind.isInline = true := by
  unfold ofInline
  split <;> rfl

theorem isInline_of_markerKind? {kind : Kind} {tk : Token.Kind} (h : markerKind? tk = some kind) :
    kind.isInline = true := by
  cases tk <;> cases h <;> rfl

theorem located_ofInline (n : Nat) (t : Token) :
    located n (ofInline t) = [(ofInline t, n)] := by
  unfold ofInline
  split <;> rfl

theorem pos_ofInline (t : Token) : (ofInline t).pos = t.start := by
  unfold ofInline
  split <;> rfl

end Node

namespace Token

/-- Inline tokens that stand one behind the other, the first one at the offset `n`, and cover a
text. -/
inductive Run : Nat → Text → List Token → Prop
  | nil {n : Nat} : Run n [] []
  | cons {n : Nat} {kind : Kind} {v rest : Text} {ts : List Token} : kind.isInline = true →
      Lexeme kind v → Run (n + Text.size v) rest ts →
      Run n (v ++ rest) (ofText kind v n.toUInt32 :: ts)

namespace Run
variable {n : Nat} {v : Text} {ts : List Token}

theorem exists_of_cons {t : Token} (h : Run n v (t :: ts)) :
    ∃ rest, v = t.value ++ rest ∧ t.kind.isInline = true ∧ Lexeme t.kind t.value ∧
      t.start = n.toUInt32 ∧ Run (n + Text.size t.value) rest ts := by
  cases h with
  | cons hkind hv hrest => exact ⟨_, rfl, hkind, hv, rfl, hrest⟩

theorem exists_of_append {us : List Token} (h : Run n v (ts ++ us)) :
    ∃ v₁ v₂, v = v₁ ++ v₂ ∧ Run n v₁ ts ∧ Run (n + Text.size v₁) v₂ us := by
  induction ts generalizing n v with
  | nil => exact ⟨[], v, rfl, .nil, h⟩
  | cons t ts ih =>
    cases h with
    | @cons _ kind u rest _ hkind hu hrest =>
      obtain ⟨v₁, v₂, rfl, h₁, h₂⟩ := ih hrest
      refine ⟨u ++ v₁, v₂, by simp, .cons hkind hu h₁, ?_⟩
      rwa [Text.size_append, ← Nat.add_assoc]

end Run

theorem value_eq_marker {t : Token} {kind : Node.Kind} (h : Lexeme t.kind t.value)
    (ht : Node.markerKind? t.kind = some kind) : t.value = kind.marker := by
  obtain ⟨tk, value, span⟩ := t
  cases tk <;> cases ht <;> exact h

namespace Run
variable {n : Nat} {v : Text} {ts : List Token}
open Node (inlines sources locatedAll)

theorem exists_of_cut? {t : Token} {kind : Node.Kind} {body rest : List Token}
    (h : Run n v (t :: ts)) (ht : Node.markerKind? t.kind = some kind)
    (hcut : Node.cut? kind ts = some (body, rest)) :
    ∃ v₁ v₂, v = kind.marker ++ v₁ ++ kind.marker ++ v₂ ∧ t.start = n.toUInt32 ∧
      Run (n + Text.size kind.marker) v₁ body ∧
      Run (n + Text.size (kind.marker ++ v₁ ++ kind.marker)) v₂ rest := by
  obtain ⟨u, rfl, hu, -⟩ := Node.cut?_eq_some_iff.1 hcut
  obtain ⟨w, rfl, -, hv, hstart, h⟩ := h.exists_of_cons
  obtain ⟨v₁, w, rfl, hbody, h⟩ := h.exists_of_append
  obtain ⟨v₂, rfl, -, hv', -, hrest⟩ := h.exists_of_cons
  rw [value_eq_marker hv ht] at hbody hrest ⊢
  rw [value_eq_marker hv' hu] at hrest ⊢
  refine ⟨v₁, v₂, by simp, hstart, hbody, ?_⟩
  simpa only [Text.size_append, Nat.add_assoc] using hrest

/-- The nodes of a run have the text of the run as their source. -/
theorem sources_inlines (h : Run n v ts) : sources (inlines ts) = v := by
  fun_induction inlines ts generalizing n v with
  | case1 =>
    cases h
    rfl
  | case2 t ts ht ih =>
    obtain ⟨rest, rfl, hkind, hv, -, h⟩ := h.exists_of_cons
    rw [sources, Node.source_ofInline hkind ht hv, ih h]
  | case3 t ts kind ht body rest hcut ihbody ihrest =>
    obtain ⟨v₁, v₂, rfl, -, hbody, hrest⟩ := h.exists_of_cut? ht hcut
    rw [sources, Node.source_branch ht, ihbody hbody, ihrest hrest]
  | case4 t ts kind ht hcut ih =>
    obtain ⟨rest, rfl, -, hv, -, h⟩ := h.exists_of_cons
    rw [sources, ih h, value_eq_marker hv ht]
    rfl

/-- Every node of a run stands where its source begins. -/
theorem located_inlines {text : Text} (h : Run n v ts) (hsize : Text.size text < UInt32.size)
    (hv : Text.StandsAt text n v) :
    ∀ m ∈ locatedAll n (inlines ts), m.1.kind.isInline = true ∧ m.1.pos.toNat = m.2 ∧
      Text.StandsAt text m.2 m.1.source := by
  have hpos : n.toUInt32.toNat = n := hv.toNat_toUInt32 hsize
  fun_induction inlines ts generalizing n v with
  | case1 => simp [locatedAll]
  | case2 t ts ht ih =>
    obtain ⟨rest, rfl, hkind, hlexeme, hstart, h⟩ := h.exists_of_cons
    have hsource := Node.source_ofInline hkind ht hlexeme
    intro m hm
    rw [locatedAll, Node.located_ofInline, hsource] at hm
    rcases List.mem_cons.1 hm with rfl | hm
    · refine ⟨Node.isInline_ofInline t, ?_, ?_⟩
      · rw [Node.pos_ofInline, hstart]
        exact hpos
      · rw [hsource]
        exact hv.left
    · exact ih h hv.right (hv.right.toNat_toUInt32 hsize) m hm
  | case3 t ts kind ht body rest hcut ihbody ihrest =>
    obtain ⟨v₁, v₂, rfl, hstart, hbody, hrest⟩ := h.exists_of_cut? ht hcut
    have hsource : (Node.branch kind t.start (inlines body)).source =
        kind.marker ++ v₁ ++ kind.marker := by
      rw [Node.source_branch ht, hbody.sources_inlines]
    have hinner := hv.left.left.right
    intro m hm
    rw [locatedAll, hsource] at hm
    rcases List.mem_append.1 hm with hm | hm
    · rcases List.mem_cons.1 hm with rfl | hm
      · refine ⟨Node.isInline_of_markerKind? ht, ?_, ?_⟩
        · show t.start.toNat = n
          rw [hstart]
          exact hpos
        · show Text.StandsAt text n (Node.branch kind t.start (inlines body)).source
          rw [hsource]
          exact hv.left
      · exact ihbody hbody hinner (hinner.toNat_toUInt32 hsize) m hm
    · exact ihrest hrest hv.right (hv.right.toNat_toUInt32 hsize) m hm
  | case4 t ts kind ht hcut ih =>
    obtain ⟨rest, rfl, -, hlexeme, hstart, h⟩ := h.exists_of_cons
    have hvalue := value_eq_marker hlexeme ht
    rw [hvalue] at h hv
    intro m hm
    rcases List.mem_cons.1 hm with rfl | hm
    · refine ⟨rfl, ?_, hv.left⟩
      show t.start.toNat = n
      rw [hstart]
      exact hpos
    · exact ih h hv.right (hv.right.toNat_toUInt32 hsize) m hm

end Run

end Token

end DocComment
