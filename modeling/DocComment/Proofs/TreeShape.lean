import DocComment.Proofs.Openers
import Mathlib.Data.Finset.Card

/-!
# The shape of trees

`Node.IsTree` says what may stand below what: blocks below the root, inline nodes below paragraphs,
and nothing below leaves. Every list of tokens gives such a tree (`Node.shape_ofTokens`), also one
that no text has, and in it no emphasis lies inside emphasis and nothing strong inside something
strong. So the tree has four levels below the root at most, however many markers there are.

The tokens between two markers of a kind hold no third one, so the kinds of markers that are left
bound the nesting (`Node.height_inlines_le`).
-/

namespace DocComment.Node

/-- A node that may stand in a paragraph. -/
inductive IsInline : Node → Prop
  | text (pos : UInt32) (data : Text) : IsInline (leaf .text pos data)
  | code (pos : UInt32) (data : Text) : IsInline (leaf .code pos data)
  | anchor (pos : UInt32) (data href : Text) :
      IsInline { kind := .anchor, pos := pos, data := data, href := href }
  | emphasis (pos : UInt32) {ns : List Node} : (∀ n ∈ ns, IsInline n) →
      IsInline (branch .emphasis pos ns)
  | strong (pos : UInt32) {ns : List Node} : (∀ n ∈ ns, IsInline n) →
      IsInline (branch .strong pos ns)

inductive IsBlock : Node → Prop
  | paragraph (pos : UInt32) {ns : List Node} : (∀ n ∈ ns, IsInline n) →
      IsBlock (branch .paragraph pos ns)
  | preformatted (pos : UInt32) (data : Text) : IsBlock (leaf .preformatted pos data)

/-- A root above blocks. -/
inductive IsTree : Node → Prop
  | root (pos : UInt32) {bs : List Node} : (∀ b ∈ bs, IsBlock b) → IsTree (branch .root pos bs)

mutual

/-- All nodes below a node. -/
def descendants : Node → List Node
  | ⟨_, _, _, _, children⟩ => descendantsAll children

/-- The nodes of a list and all nodes below them. -/
def descendantsAll : List Node → List Node
  | [] => []
  | n :: ns => n :: (descendants n ++ descendantsAll ns)

end

mutual

/-- The number of levels below a node. -/
def height : Node → Nat
  | ⟨_, _, _, _, children⟩ => heightAll children

/-- The number of levels that the nodes of a list and those below them take. -/
def heightAll : List Node → Nat
  | [] => 0
  | n :: ns => max (height n + 1) (heightAll ns)

end

theorem descendants_eq (n : Node) : n.descendants = descendantsAll n.children := by
  cases n
  rfl

@[simp] theorem descendants_branch (kind : Kind) (pos : UInt32) (ns : List Node) :
    (branch kind pos ns).descendants = descendantsAll ns := rfl

@[simp] theorem height_leaf (kind : Kind) (pos : UInt32) (data : Text) :
    (leaf kind pos data).height = 0 := rfl

@[simp] theorem height_branch (kind : Kind) (pos : UInt32) (ns : List Node) :
    (branch kind pos ns).height = heightAll ns := rfl

theorem descendantsAll_append (ns ms : List Node) :
    descendantsAll (ns ++ ms) = descendantsAll ns ++ descendantsAll ms := by
  induction ns with
  | nil => rfl
  | cons n ns ih => simp [descendantsAll, ih]

theorem heightAll_le {ns : List Node} {h : Nat} (hns : ∀ n ∈ ns, n.height + 1 ≤ h) :
    heightAll ns ≤ h := by
  induction ns with
  | nil => exact Nat.zero_le h
  | cons n ns ih =>
    obtain ⟨hn, hns⟩ := List.forall_mem_cons.1 hns
    exact Nat.max_le.2 ⟨hn, ih hns⟩

/-! ### Inline nodes -/

theorem IsInline.ofInline (t : Token) : IsInline (ofInline t) := by
  unfold Node.ofInline
  split
  · exact .code _ _
  · exact .anchor _ _ _
  · exact .anchor _ _ _
  · exact .text _ _

theorem IsInline.branch {tk : Token.Kind} {kind : Kind} (h : markerKind? tk = some kind)
    (pos : UInt32) {ns : List Node} (hns : ∀ n ∈ ns, IsInline n) :
    IsInline (Node.branch kind pos ns) := by
  cases tk with
  | star =>
    cases h
    exact .emphasis pos hns
  | doubleStar =>
    cases h
    exact .strong pos hns
  | _ => cases h

theorem isInline_of_mem_inlines (ts : List Token) : ∀ n ∈ inlines ts, IsInline n := by
  fun_induction inlines ts with
  | case1 => simp
  | case2 t ts ht ih => exact List.forall_mem_cons.2 ⟨.ofInline t, ih⟩
  | case3 t ts kind ht body rest hcut ihbody ihrest =>
    exact List.forall_mem_cons.2 ⟨.branch ht t.start ihbody, ihrest⟩
  | case4 t ts kind ht hcut ih => exact List.forall_mem_cons.2 ⟨.text _ _, ih⟩

theorem descendants_ofInline (t : Token) : (ofInline t).descendants = [] := by
  unfold ofInline
  split <;> rfl

theorem height_ofInline (t : Token) : (ofInline t).height = 0 := by
  unfold ofInline
  split <;> rfl

/-- A leaf is not of a kind that markers make. -/
theorem kind_ofInline_ne {tk : Token.Kind} {kind : Kind} (h : markerKind? tk = some kind)
    (t : Token) : (ofInline t).kind ≠ kind := by
  have hleaf : (ofInline t).kind = .code ∨ (ofInline t).kind = .anchor ∨
      (ofInline t).kind = .text := by
    unfold ofInline
    split <;> simp [leaf]
  rintro rfl
  cases tk <;> simp [markerKind?] at h <;> simp [← h] at hleaf

/-! ### Nesting -/

/-- Without a marker of a kind there is no node of this kind. -/
theorem kind_ne_of_mem_inlines {tk : Token.Kind} {kind : Kind} (hkind : markerKind? tk = some kind)
    {ts : List Token} (hts : ∀ t ∈ ts, markerKind? t.kind ≠ some kind) :
    ∀ n ∈ descendantsAll (inlines ts), n.kind ≠ kind := by
  fun_induction inlines ts with
  | case1 => simp [descendantsAll]
  | case2 t ts ht ih =>
    obtain ⟨-, hts⟩ := List.forall_mem_cons.1 hts
    rw [descendantsAll, descendants_ofInline]
    exact List.forall_mem_cons.2 ⟨kind_ofInline_ne hkind t, ih hts⟩
  | case3 t ts kind' ht body rest hcut ihbody ihrest =>
    obtain ⟨u, rfl, -⟩ := cut?_eq_some_iff.1 hcut
    have hne : kind' ≠ kind := fun h => hts t List.mem_cons_self (h ▸ ht)
    have hbody := ihbody fun v hv => hts v (by simp [hv])
    have hrest := ihrest fun v hv => hts v (by simp [hv])
    rw [descendantsAll, descendants_branch]
    exact List.forall_mem_cons.2 ⟨hne, List.forall_mem_append.2 ⟨hbody, hrest⟩⟩
  | case4 t ts kind' ht hcut ih =>
    obtain ⟨-, hts⟩ := List.forall_mem_cons.1 hts
    have hne : Kind.text ≠ kind := by
      rintro rfl
      cases tk <;> cases hkind
    exact List.forall_mem_cons.2 ⟨hne, ih hts⟩

/-- No node of a kind that markers make lies below another one of its kind. -/
def Unnested (ns : List Node) : Prop :=
  ∀ n ∈ descendantsAll ns, n.kind = .emphasis ∨ n.kind = .strong →
    ∀ m ∈ n.descendants, m.kind ≠ n.kind

namespace Unnested
variable {n : Node} {ns ms : List Node}

theorem nil : Unnested [] := by simp [Unnested, descendantsAll]

theorem append (hns : Unnested ns) (hms : Unnested ms) : Unnested (ns ++ ms) := by
  rw [Unnested, descendantsAll_append]
  exact List.forall_mem_append.2 ⟨hns, hms⟩

theorem cons (hchildren : Unnested n.children)
    (hn : n.kind = .emphasis ∨ n.kind = .strong → ∀ m ∈ n.descendants, m.kind ≠ n.kind)
    (hns : Unnested ns) : Unnested (n :: ns) := by
  rw [Unnested, descendantsAll, descendants_eq]
  exact List.forall_mem_cons.2 ⟨hn, List.forall_mem_append.2 ⟨hchildren, hns⟩⟩

/-- A leaf in front of unnested nodes. -/
theorem cons_leaf (hn : n.children = []) (hns : Unnested ns) : Unnested (n :: ns) := by
  refine cons (hn ▸ nil) (fun _ m hm => ?_) hns
  rw [descendants_eq, hn] at hm
  cases hm

theorem inlines (ts : List Token) : Unnested (Node.inlines ts) := by
  fun_induction Node.inlines ts with
  | case1 => exact nil
  | case2 t ts ht ih =>
    refine cons_leaf ?_ ih
    unfold ofInline
    split <;> rfl
  | case3 t ts kind ht body rest hcut ihbody ihrest =>
    obtain ⟨-, -, -, hbody⟩ := cut?_eq_some_iff.1 hcut
    exact cons ihbody (fun _ => kind_ne_of_mem_inlines ht hbody) ihrest
  | case4 t ts kind ht hcut ih => exact cons_leaf rfl ih

end Unnested

/-- The kinds of nodes that the markers among some tokens make. -/
def markerKinds (ts : List Token) : Finset Kind := (ts.filterMap (markerKind? ·.kind)).toFinset

theorem mem_markerKinds {kind : Kind} {ts : List Token} :
    kind ∈ markerKinds ts ↔ ∃ t ∈ ts, markerKind? t.kind = some kind := by
  simp [markerKinds]

theorem markerKinds_mono {ts us : List Token} (h : ts ⊆ us) : markerKinds ts ⊆ markerKinds us := by
  intro kind hkind
  obtain ⟨t, ht, hmarker⟩ := mem_markerKinds.1 hkind
  exact mem_markerKinds.2 ⟨t, h ht, hmarker⟩

theorem card_markerKinds_le (ts : List Token) : (markerKinds ts).card ≤ 2 := by
  have hsubset : markerKinds ts ⊆ {.emphasis, .strong} := by
    intro kind hkind
    obtain ⟨t, -, hmarker⟩ := mem_markerKinds.1 hkind
    revert hmarker
    cases t.kind <;> simp [markerKind?] <;> rintro rfl <;> simp
  exact Finset.card_le_card hsubset

/-- Inline nodes take a level for each kind of marker at most, and one for leaves. -/
theorem height_inlines_le (ts : List Token) :
    heightAll (inlines ts) ≤ (markerKinds ts).card + 1 := by
  fun_induction inlines ts with
  | case1 => exact Nat.zero_le _
  | case2 t ts ht ih =>
    have hmono := Finset.card_le_card (markerKinds_mono (List.subset_cons_self t ts))
    rw [heightAll, height_ofInline]
    omega
  | case3 t ts kind ht body rest hcut ihbody ihrest =>
    obtain ⟨u, rfl, -, hbody⟩ := cut?_eq_some_iff.1 hcut
    have hrest : rest ⊆ t :: (body ++ u :: rest) := fun v hv => by simp [hv]
    replace hrest := Finset.card_le_card (markerKinds_mono hrest)
    -- the tokens in between make nodes of the other kinds only
    have hbody : markerKinds body ⊆ (markerKinds (t :: (body ++ u :: rest))).erase kind := by
      intro kind' hkind'
      obtain ⟨v, hv, hmarker⟩ := mem_markerKinds.1 hkind'
      refine Finset.mem_erase.2 ⟨?_, mem_markerKinds.2 ⟨v, by simp [hv], hmarker⟩⟩
      rintro rfl
      exact hbody v hv hmarker
    have hmem : kind ∈ markerKinds (t :: (body ++ u :: rest)) :=
      mem_markerKinds.2 ⟨t, List.mem_cons_self, ht⟩
    have hlt := Finset.card_le_card hbody
    rw [Finset.card_erase_of_mem hmem] at hlt
    have hpos := Finset.card_pos.2 ⟨kind, hmem⟩
    rw [heightAll, height_branch]
    omega
  | case4 t ts kind ht hcut ih =>
    have hmono := Finset.card_le_card (markerKinds_mono (List.subset_cons_self t ts))
    rw [heightAll, height_leaf]
    omega

/-! ### Blocks -/

/-- What holds of every block of a tree of tokens. -/
structure BlockShape (b : Node) : Prop where
  isBlock : IsBlock b
  children_ne_nil : b.kind = .paragraph → b.children ≠ []
  unnested : Unnested [b]
  height_le : b.height ≤ 3

theorem blockShape_paragraph (pos : UInt32) {ts : List Token} (hts : ts ≠ []) :
    BlockShape (branch .paragraph pos (inlines ts)) where
  isBlock := .paragraph pos (isInline_of_mem_inlines ts)
  children_ne_nil _ := by
    obtain ⟨t, us, rfl⟩ := List.exists_cons_of_ne_nil hts
    exact inlines_ne_nil t us
  unnested := .cons (.inlines ts) (by simp [branch]) .nil
  height_le := by
    have hle := height_inlines_le ts
    have hcard := card_markerKinds_le ts
    rw [height_branch]
    omega

theorem blockShape_ofIndented (t : Token) : BlockShape (ofIndented t) where
  isBlock := .preformatted _ _
  children_ne_nil h := by cases h
  unnested := .cons_leaf rfl .nil
  height_le := Nat.zero_le _

theorem unnested_of_blockShape {bs : List Node} (h : ∀ b ∈ bs, BlockShape b) : Unnested bs := by
  induction bs with
  | nil => exact .nil
  | cons b bs ih =>
    obtain ⟨hb, hbs⟩ := List.forall_mem_cons.1 h
    exact hb.unnested.append (ih hbs)

/-! ### The opener stack -/

/-- While tokens are added, the paragraph that is open has no two openers of one kind. -/
theorem Builder.distinct_foldl {b : Builder} (h : ∀ p ∈ b.paragraph?, p.Distinct)
    (ts : List Token) : ∀ p ∈ (ts.foldl add b).paragraph?, p.Distinct := by
  induction ts generalizing b with
  | nil => exact h
  | cons t ts ih =>
    refine ih (b := b.add t) fun p hp => ?_
    unfold add at hp
    split at hp
    · cases hp
      exact List.nodup_nil
    · cases hp
    · cases hp
      refine OpenParagraph.Distinct.addInline ?_ t
      cases hb : b.paragraph? with
      | none => exact List.nodup_nil
      | some q => exact h q hb

/-- Every list of tokens gives a tree of blocks and inline nodes in which nothing is nested in its
own kind, and the openers that wait at any moment are of different kinds. -/
theorem shape_ofTokens (ts : List Token) :
    (ofTokens ts).IsTree ∧ (ofTokens ts).pos = 0 ∧
      (∀ b ∈ (ofTokens ts).children, b.kind = .paragraph → b.children ≠ []) ∧
      (∀ n ∈ (ofTokens ts).descendants, n.kind = .emphasis ∨ n.kind = .strong →
        ∀ m ∈ n.descendants, m.kind ≠ n.kind) ∧
      (ofTokens ts).height ≤ 4 ∧
      ∀ us, us <+: ts.takeWhile (·.kind != .finish) → ∀ p ∈ (us.foldl Builder.add {}).paragraph?,
        p.Distinct := by
  have hchildren := children_ofTokens ts
  have hshape := forall_mem_blocks blockShape_ofIndented (fun pos _ => blockShape_paragraph pos)
    (ts.takeWhile (·.kind != .finish))
  rw [← hchildren] at hshape
  refine ⟨?_, rfl, fun b hb => (hshape b hb).children_ne_nil, unnested_of_blockShape hshape, ?_,
    fun us _ => Builder.distinct_foldl (by simp) us⟩
  · exact .root 0 fun b hb => (hshape b hb).isBlock
  · exact heightAll_le fun b hb => Nat.succ_le_succ (hshape b hb).height_le

end DocComment.Node
