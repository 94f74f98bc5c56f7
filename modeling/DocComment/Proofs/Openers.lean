import DocComment.Node.Build
import DocComment.Proofs.Stream
import Mathlib.Data.List.TakeDrop
import Mathlib.Data.List.TakeWhile

/-!
# The opener stack and plain recursion

The tree of a list of tokens, said without a stack. `Node.inlines` looks from a marker ahead to the
next marker of its kind: if there is one, the tokens in between are the children of a node, and the
marker is plain text otherwise. `Node.blocks` cuts the tokens into paragraphs and runs of indented
lines. `Node.ofTokens_eq_blocks` says that the stack builds the same tree.

The proof gives every state of the stack a meaning, the function `OpenParagraph.result` from the
tokens to come to the nodes of the whole paragraph, and shows that adding a token does not change
it. Read from the outermost opener, each opener takes the tokens up to the next marker of its kind
or, if there is none, becomes plain text; this needs that no two openers are of one kind.
-/

namespace DocComment.Node

/-- The kind of node that a token opens or closes, if it is a marker. -/
def markerKind? : Token.Kind → Option Kind
  | .star => some .emphasis
  | .doubleStar => some .strong
  | _ => none

/-- The tokens in front of the first marker of a kind, and those behind it. -/
def cut? (kind : Kind) : List Token → Option (List Token × List Token)
  | [] => none
  | t :: ts =>
    if markerKind? t.kind = some kind then some ([], ts)
    else (cut? kind ts).map fun (body, rest) => (t :: body, rest)

theorem cut?_eq_some_iff {kind : Kind} {ts body rest : List Token} :
    cut? kind ts = some (body, rest) ↔ ∃ t, ts = body ++ t :: rest ∧
      markerKind? t.kind = some kind ∧ ∀ u ∈ body, markerKind? u.kind ≠ some kind := by
  induction ts generalizing body with
  | nil => simp [cut?]
  | cons t ts ih =>
    rw [cut?]
    split
    · next ht =>
      constructor
      · intro h
        obtain ⟨rfl, rfl⟩ := Prod.mk.inj (Option.some.inj h)
        exact ⟨t, rfl, ht, by simp⟩
      · rintro ⟨u, heq, hu, hbody⟩
        cases body with
        | nil =>
          obtain ⟨-, rfl⟩ := List.cons.inj heq
          rfl
        | cons v body =>
          obtain ⟨rfl, -⟩ := List.cons.inj heq
          exact absurd ht (hbody t List.mem_cons_self)
    · next ht =>
      rw [Option.map_eq_some_iff]
      constructor
      · rintro ⟨⟨body', rest'⟩, hcut, heq⟩
        obtain ⟨rfl, rfl⟩ := Prod.mk.inj heq
        obtain ⟨u, rfl, hu, hbody⟩ := ih.1 hcut
        exact ⟨u, rfl, hu, by simpa using ⟨ht, hbody⟩⟩
      · rintro ⟨u, heq, hu, hbody⟩
        cases body with
        | nil =>
          obtain ⟨rfl, -⟩ := List.cons.inj heq
          exact absurd hu ht
        | cons v body =>
          obtain ⟨rfl, rfl⟩ := List.cons.inj heq
          exact ⟨(body, rest), ih.2 ⟨u, rfl, hu, fun w hw => hbody w (by simp [hw])⟩, rfl⟩

theorem cut?_eq_none_iff {kind : Kind} {ts : List Token} :
    cut? kind ts = none ↔ ∀ t ∈ ts, markerKind? t.kind ≠ some kind := by
  induction ts with
  | nil => simp [cut?]
  | cons t ts ih =>
    rw [cut?]
    split
    · next ht => simp [ht]
    · next ht => simp [ht, ih]

theorem length_of_cut?_eq_some {kind : Kind} {ts body rest : List Token}
    (h : cut? kind ts = some (body, rest)) : ts.length = body.length + rest.length + 1 := by
  obtain ⟨t, rfl, -⟩ := cut?_eq_some_iff.1 h
  simp [Nat.add_assoc]

/-- The nodes of the inline tokens of a paragraph. -/
def inlines : List Token → List Node
  | [] => []
  | t :: ts =>
    match markerKind? t.kind with
    | none => ofInline t :: inlines ts
    | some kind =>
      match _h : cut? kind ts with
      | some (body, rest) => branch kind t.start (inlines body) :: inlines rest
      | none => leaf .text t.start kind.marker :: inlines ts
termination_by ts => ts.length
decreasing_by
  · exact Nat.lt_succ_self _
  · have := length_of_cut?_eq_some _h
    simp only [List.length_cons]
    omega
  · have := length_of_cut?_eq_some _h
    simp only [List.length_cons]
    omega
  · exact Nat.lt_succ_self _

@[simp] theorem inlines_nil : inlines [] = [] := by rw [inlines]

theorem inlines_leaf {t : Token} (ts : List Token) (h : markerKind? t.kind = none) :
    inlines (t :: ts) = ofInline t :: inlines ts := by
  rw [inlines]
  simp only [h]

theorem inlines_closed {t u : Token} {body rest : List Token} {kind : Kind}
    (h : markerKind? t.kind = some kind) (hu : markerKind? u.kind = some kind)
    (hbody : ∀ w ∈ body, markerKind? w.kind ≠ some kind) :
    inlines (t :: (body ++ u :: rest)) = branch kind t.start (inlines body) :: inlines rest := by
  have hcut : cut? kind (body ++ u :: rest) = some (body, rest) :=
    cut?_eq_some_iff.2 ⟨u, rfl, hu, hbody⟩
  rw [inlines]
  simp only [h]
  split
  · next heq =>
    rw [hcut] at heq
    cases heq
    rfl
  · next heq => rw [hcut] at heq; cases heq

theorem inlines_unclosed {t : Token} {ts : List Token} {kind : Kind}
    (h : markerKind? t.kind = some kind) (hts : ∀ u ∈ ts, markerKind? u.kind ≠ some kind) :
    inlines (t :: ts) = leaf .text t.start kind.marker :: inlines ts := by
  have hcut : cut? kind ts = none := cut?_eq_none_iff.2 hts
  rw [inlines]
  simp only [h]
  split
  · next heq => rw [hcut] at heq; cases heq
  · rfl

theorem inlines_ne_nil (t : Token) (ts : List Token) : inlines (t :: ts) ≠ [] := by
  rw [inlines]
  split
  · exact List.cons_ne_nil _ _
  · split <;> exact List.cons_ne_nil _ _

def paragraph (pos : UInt32) (ts : List Token) : List Node :=
  if ts.isEmpty then [] else [branch .paragraph pos (inlines ts)]

/-- The blocks of tokens among which is none that ends the text. -/
def blocks : List Token → List Node
  | [] => []
  | t :: ts =>
    match t.kind with
    | .indented => ofIndented t :: blocks ts
    | .paragraph =>
      paragraph t.start (ts.takeWhile (·.kind.isInline)) ++ blocks (ts.dropWhile (·.kind.isInline))
    | _ =>
      paragraph t.start (t :: ts.takeWhile (·.kind.isInline)) ++
        blocks (ts.dropWhile (·.kind.isInline))
termination_by ts => ts.length
decreasing_by
  · exact Nat.lt_succ_self _
  · exact Nat.lt_succ_of_le (List.dropWhile_suffix _).length_le
  · exact Nat.lt_succ_of_le (List.dropWhile_suffix _).length_le

/-! ### The meaning of a stack -/

/-- The nodes of the tokens `ts` behind open markers, outermost first, if `inner` gives the nodes of
the tokens that none of them cuts off. -/
def under (inner : List Token → List Node) : List Opener → List Token → List Node
  | [], ts => inner ts
  | o :: os, ts =>
    match cut? o.kind ts with
    | some (body, rest) =>
      branch o.kind o.pos (o.inner.reverse ++ under inner os body) :: inlines rest
    | none => leaf .text o.pos o.kind.marker :: (o.inner.reverse ++ under inner os ts)

theorem under_append (inner : List Token → List Node) (os os' : List Opener) (ts : List Token) :
    under inner (os ++ os') ts = under (under inner os') os ts := by
  induction os generalizing ts with
  | nil => rfl
  | cons o os ih => simp only [List.cons_append, under, ih]

/-- A token that closes none of the openers can be moved from the tokens to the function under
them. -/
theorem under_cons {inner inner' : List Token → List Node} {t : Token}
    (hinner : ∀ ts, inner (t :: ts) = inner' ts) {os : List Opener}
    (hos : ∀ o ∈ os, markerKind? t.kind ≠ some o.kind) (ts : List Token) :
    under inner os (t :: ts) = under inner' os ts := by
  induction os generalizing ts with
  | nil => exact hinner ts
  | cons o os ih =>
    have ho : markerKind? t.kind ≠ some o.kind := hos o List.mem_cons_self
    have ih := ih fun o' ho' => hos o' (List.mem_cons_of_mem _ ho')
    rw [under, under, cut?, if_neg ho]
    cases cut? o.kind ts with
    | none => simp only [Option.map_none, ih]
    | some p => simp only [Option.map_some, ih]

theorem under_closed {inner : List Token → List Node} {t : Token} {o : Opener}
    (h : markerKind? t.kind = some o.kind) (os : List Opener) (ts : List Token) :
    under inner (o :: os) (t :: ts) =
      branch o.kind o.pos (o.inner.reverse ++ under inner os []) :: inlines ts := by
  rw [under, cut?, if_pos h]

theorem under_nil (os : List Opener) : under inlines os [] =
    os.flatMap fun o => leaf .text o.pos o.kind.marker :: o.inner.reverse := by
  induction os with
  | nil => simp [under]
  | cons o os ih => simp [under, cut?, ih]

theorem reverse_foldr_flatten (os : List Opener) (nodes : List Node) :
    (os.foldr Opener.flatten nodes).reverse = nodes.reverse ++ under inlines os.reverse [] := by
  rw [under_nil]
  induction os with
  | nil => simp
  | cons o os ih =>
    rw [List.foldr_cons, Opener.flatten, List.reverse_append, List.reverse_cons, ih]
    simp

namespace OpenParagraph
variable {p : OpenParagraph}

/-- The nodes of a paragraph if the tokens `ts` are still to come. -/
def result (p : OpenParagraph) (ts : List Token) : List Node :=
  p.nodes.reverse ++ under inlines p.openers.reverse ts

def Distinct (p : OpenParagraph) : Prop := (p.openers.map (·.kind)).Nodup

theorem result_push (n : Node) (ts : List Token) :
    (p.push n).result ts =
      p.nodes.reverse ++ under (fun ts => n :: inlines ts) p.openers.reverse ts := by
  unfold push
  split
  · next h => simp [result, h, under]
  · next o os h =>
    have hlast : under inlines [{ o with inner := n :: o.inner }] =
        under (fun ts => n :: inlines ts) [o] := by
      funext ts
      simp only [under]
      cases cut? o.kind ts with
      | none => simp
      | some q => simp
    rw [result, h, List.reverse_cons, List.reverse_cons, under_append, under_append, hlast]

theorem openers_push_map (n : Node) :
    (p.push n).openers.map (·.kind) = p.openers.map (·.kind) := by
  unfold push
  split <;> simp [*]

theorem Distinct.push (h : p.Distinct) (n : Node) : (p.push n).Distinct := by
  rw [Distinct, openers_push_map]
  exact h

/-- A marker opens a node, if no opener is of its kind, or closes the innermost such opener. -/
theorem mark_cases (p : OpenParagraph) (kind : Kind) (pos : UInt32) :
    ((∀ o ∈ p.openers, o.kind ≠ kind) ∧
      p.mark kind pos = { p with openers := { kind, pos } :: p.openers }) ∨
    ∃ above o below, p.openers = above ++ o :: below ∧ o.kind = kind ∧
      p.mark kind pos = { p with openers := below }.push
        (branch kind o.pos (above.foldr Opener.flatten o.inner).reverse) := by
  unfold mark
  rw [List.span_eq_takeWhile_dropWhile]
  dsimp only
  split
  · next hnil =>
    left
    refine ⟨fun o ho => ?_, rfl⟩
    simpa using List.dropWhile_eq_nil_iff.1 hnil o ho
  · next o below hcons =>
    right
    have hkind := List.head?_dropWhile_not (fun o : Opener => o.kind != kind) p.openers
    rw [hcons] at hkind
    refine ⟨_, o, below, ?_, by simpa using hkind, rfl⟩
    rw [← hcons, List.takeWhile_append_dropWhile]

theorem Distinct.mark (h : p.Distinct) (kind : Kind) (pos : UInt32) : (p.mark kind pos).Distinct := by
  rcases p.mark_cases kind pos with ⟨hos, heq⟩ | ⟨above, o, below, hos, hkind, heq⟩
  · rw [heq, Distinct, List.map_cons, List.nodup_cons]
    refine ⟨?_, h⟩
    rw [List.mem_map]
    rintro ⟨o, ho, hkind⟩
    exact hos o ho hkind
  · rw [heq]
    refine Distinct.push ?_ _
    rw [Distinct, hos, List.map_append, List.map_cons, List.nodup_append, List.nodup_cons] at h
    exact h.2.1.2

theorem result_mark (h : p.Distinct) {t : Token} {kind : Kind} (ht : markerKind? t.kind = some kind)
    (ts : List Token) : (p.mark kind t.start).result ts = p.result (t :: ts) := by
  rcases p.mark_cases kind t.start with ⟨hos, heq⟩ | ⟨above, o, below, hos, rfl, heq⟩
  · -- the opener does to the tokens what `inlines` does at the marker
    have hinner : ∀ ts, inlines (t :: ts) = under inlines [{ kind, pos := t.start }] ts := by
      intro ts
      cases hcut : cut? kind ts with
      | none =>
        rw [inlines_unclosed ht (cut?_eq_none_iff.1 hcut)]
        simp [under, hcut]
      | some q =>
        obtain ⟨u, rfl, hu, hbody⟩ := cut?_eq_some_iff.1 hcut
        rw [inlines_closed ht hu hbody]
        simp [under, hcut]
    rw [heq, result, result, List.reverse_cons, under_append, under_cons hinner]
    intro o ho
    rw [ht, ne_eq, Option.some.injEq]
    exact fun hk => hos o (List.mem_reverse.1 ho) hk.symm
  · -- the openers above lie inside the node, and those below are not of its kind
    have hbelow : ∀ b ∈ below.reverse, markerKind? t.kind ≠ some b.kind := by
      intro b hb
      rw [Distinct, hos, List.map_append, List.map_cons, List.nodup_append, List.nodup_cons] at h
      rw [ht, ne_eq, Option.some.injEq]
      exact fun hk => h.2.1.1 (hk ▸ List.mem_map_of_mem (List.mem_reverse.1 hb))
    have hreverse : p.openers.reverse = below.reverse ++ (o :: above.reverse) := by
      rw [hos]
      simp
    rw [heq, result_push, result, hreverse, under_append,
      under_cons (fun ts => under_closed ht above.reverse ts) hbelow, reverse_foldr_flatten]

theorem addInline_eq (p : OpenParagraph) (t : Token) :
    Builder.addInline p t =
      match markerKind? t.kind with
      | none => p.push (ofInline t)
      | some kind => p.mark kind t.start := by
  unfold Builder.addInline
  cases t.kind <;> rfl

theorem Distinct.addInline (h : p.Distinct) (t : Token) : (Builder.addInline p t).Distinct := by
  rw [addInline_eq]
  split
  · exact h.push _
  · exact h.mark _ _

/-- Adding a token does not change what the paragraph becomes. -/
theorem result_addInline (h : p.Distinct) (t : Token) (ts : List Token) :
    (Builder.addInline p t).result ts = p.result (t :: ts) := by
  rw [addInline_eq]
  split
  · next ht =>
    rw [result_push, result, under_cons (fun ts => inlines_leaf ts ht)]
    simp [ht]
  · next kind ht => exact result_mark h ht ts

theorem result_foldl (h : p.Distinct) (ts : List Token) :
    (ts.foldl Builder.addInline p).result [] = p.result ts := by
  induction ts generalizing p with
  | nil => rfl
  | cons t ts ih => rw [List.foldl_cons, ih (h.addInline t), result_addInline h]

theorem pos_push (p : OpenParagraph) (n : Node) : (p.push n).pos = p.pos := by
  unfold push
  split <;> rfl

theorem pos_foldl (p : OpenParagraph) (ts : List Token) :
    (ts.foldl Builder.addInline p).pos = p.pos := by
  induction ts generalizing p with
  | nil => rfl
  | cons t ts ih =>
    rw [List.foldl_cons, ih, addInline_eq]
    split
    · exact pos_push p _
    · next kind _ =>
      rcases p.mark_cases kind t.start with ⟨-, heq⟩ | ⟨above, o, below, -, -, heq⟩
      · rw [heq]
      · rw [heq, pos_push]

theorem toList_close? (p : OpenParagraph) :
    p.close?.toList = if p.result [] = [] then [] else [branch .paragraph p.pos (p.result [])] := by
  rw [result, ← reverse_foldr_flatten]
  unfold close?
  split
  · next h => simp [h]
  · next nodes hne => rw [if_neg (fun h => hne (List.reverse_eq_nil_iff.1 h))]; rfl

theorem toList_close?_foldl (pos : UInt32) (ts : List Token) :
    (ts.foldl Builder.addInline { pos }).close?.toList = paragraph pos ts := by
  have hdistinct : Distinct { pos } := List.nodup_nil
  rw [toList_close?, result_foldl hdistinct, pos_foldl]
  show (if inlines ts = [] then [] else [branch .paragraph pos (inlines ts)]) = paragraph pos ts
  cases ts with
  | nil => simp [paragraph]
  | cons t ts => simp [paragraph, inlines_ne_nil]

end OpenParagraph

/-! ### The blocks -/

/-- A run of a class ends where the first item of another kind stands. -/
theorem takeWhile_run {α : Type} {p : α → Bool} {run rest : List α} (hrun : ∀ a ∈ run, p a = true)
    (hrest : ∀ a ∈ rest.head?, p a = false) :
    (run ++ rest).takeWhile p = run ∧ (run ++ rest).dropWhile p = rest := by
  rw [List.takeWhile_append_of_pos hrun, List.dropWhile_append_of_pos hrun]
  cases rest with
  | nil => exact ⟨List.append_nil run, rfl⟩
  | cons a rest => simp [hrest a rfl]

theorem blocks_of_isInline {t : Token} (ts : List Token) (h : t.kind.isInline = true) :
    blocks (t :: ts) = paragraph t.start (t :: ts.takeWhile (·.kind.isInline)) ++
      blocks (ts.dropWhile (·.kind.isInline)) := by
  rw [blocks]
  split
  · next hk => rw [hk] at h; cases h
  · next hk => rw [hk] at h; cases h
  · rfl

theorem blocks_of_paragraph {t : Token} (ts : List Token) (h : t.kind = .paragraph) :
    blocks (t :: ts) = paragraph t.start (ts.takeWhile (·.kind.isInline)) ++
      blocks (ts.dropWhile (·.kind.isInline)) := by
  rw [blocks]
  simp only [h]

/-- A paragraph takes the inline tokens behind it. -/
theorem blocks_paragraph_append {t : Token} (ht : t.kind = .paragraph) {run ts : List Token}
    (hrun : ∀ u ∈ run, u.kind.isInline = true)
    (hts : ∀ u ∈ ts.head?, u.kind.isInline = false) :
    blocks (t :: (run ++ ts)) = paragraph t.start run ++ blocks ts := by
  obtain ⟨htake, hdrop⟩ := takeWhile_run hrun hts
  rw [blocks_of_paragraph _ ht, htake, hdrop]

theorem blocks_paragraph_run {t : Token} (ht : t.kind = .paragraph) {run : List Token}
    (hrun : ∀ u ∈ run, u.kind.isInline = true) : blocks (t :: run) = paragraph t.start run := by
  have happend : blocks (t :: (run ++ [])) = paragraph t.start run ++ blocks [] :=
    blocks_paragraph_append ht hrun (by simp)
  rwa [List.append_nil, blocks, List.append_nil] at happend

theorem blocks_of_indented {t : Token} (ts : List Token) (h : t.kind = .indented) :
    blocks (t :: ts) = ofIndented t :: blocks ts := by
  rw [blocks]
  simp only [h]

/-- What holds of preformatted lines and of paragraphs of some tokens holds of all blocks. -/
theorem forall_mem_blocks {P : Node → Prop} (hindented : ∀ t, P (ofIndented t))
    (hparagraph : ∀ pos ts, ts ≠ [] → P (branch .paragraph pos (inlines ts))) (ts : List Token) :
    ∀ b ∈ blocks ts, P b := by
  have hmem : ∀ pos ts, ∀ b ∈ paragraph pos ts, P b := by
    intro pos ts b hb
    unfold paragraph at hb
    split at hb
    · cases hb
    · next hts =>
      obtain rfl := List.mem_singleton.1 hb
      exact hparagraph pos ts (by simpa using hts)
  fun_induction blocks ts with
  | case1 => simp
  | case2 t ts _ ih => exact List.forall_mem_cons.2 ⟨hindented t, ih⟩
  | case3 t ts _ ih => exact List.forall_mem_append.2 ⟨hmem _ _, ih⟩
  | case4 t ts _ _ ih => exact List.forall_mem_append.2 ⟨hmem _ _, ih⟩

namespace Builder

theorem reverse_blocks_closeParagraph (b : Builder) :
    b.closeParagraph.blocks.reverse = b.blocks.reverse ++
      match b.paragraph? with
      | none => []
      | some p => p.close?.toList := by
  unfold closeParagraph
  cases b.paragraph? with
  | none => simp
  | some p => cases hclose : p.close? <;> simp [hclose]

/-- What a token does to a builder. -/
theorem add_cases (b : Builder) {t : Token} (ht : t.kind ≠ .finish) :
    (t.kind = .paragraph ∧
      b.add t = { b.closeParagraph with paragraph? := some { pos := t.start } }) ∨
    (t.kind = .indented ∧
      b.add t = { b.closeParagraph with blocks := ofIndented t :: b.closeParagraph.blocks }) ∨
    (t.kind.isInline = true ∧
      b.add t = { b with paragraph? := some (addInline (b.paragraph?.getD { pos := t.start }) t) }) := by
  unfold add
  split
  · next hk => exact .inl ⟨hk, rfl⟩
  · next hk => exact .inr (.inl ⟨hk, rfl⟩)
  · next hparagraph hindented =>
    refine .inr (.inr ⟨?_, rfl⟩)
    cases hk : t.kind with
    | paragraph => exact absurd hk hparagraph
    | indented => exact absurd hk hindented
    | finish => exact absurd hk ht
    | _ => rfl

/-- The blocks that a builder gives if the tokens `ts` are still to come: the paragraph that is open
takes the inline tokens in front. -/
theorem reverse_blocks_foldl (b : Builder) {ts : List Token} (hts : ∀ t ∈ ts, t.kind ≠ .finish) :
    (ts.foldl add b).closeParagraph.blocks.reverse = b.blocks.reverse ++
      match b.paragraph? with
      | none => Node.blocks ts
      | some p => ((ts.takeWhile (·.kind.isInline)).foldl addInline p).close?.toList ++
          Node.blocks (ts.dropWhile (·.kind.isInline)) := by
  induction ts generalizing b with
  | nil =>
    rw [List.foldl_nil, reverse_blocks_closeParagraph]
    cases b.paragraph? <;> simp [Node.blocks]
  | cons t ts ih =>
    obtain ⟨ht, hts⟩ := List.forall_mem_cons.1 hts
    rw [List.foldl_cons, ih _ hts]
    rcases b.add_cases ht with ⟨hk, hadd⟩ | ⟨hk, hadd⟩ | ⟨hinline, hadd⟩
    · have hinline : t.kind.isInline = false := by rw [hk]; rfl
      rw [hadd]
      simp only [reverse_blocks_closeParagraph, OpenParagraph.toList_close?_foldl,
        ← blocks_of_paragraph ts hk, List.takeWhile_cons, List.dropWhile_cons, hinline]
      cases b.paragraph? <;> simp
    · have hinline : t.kind.isInline = false := by rw [hk]; rfl
      have hnone : b.closeParagraph.paragraph? = none := rfl
      rw [hadd]
      simp only [hnone, List.reverse_cons, reverse_blocks_closeParagraph,
        blocks_of_indented ts hk, List.takeWhile_cons, List.dropWhile_cons, hinline]
      cases b.paragraph? <;> simp [blocks_of_indented ts hk]
    · rw [hadd]
      simp only [List.takeWhile_cons, List.dropWhile_cons, hinline, if_true, List.foldl_cons]
      cases b.paragraph? with
      | none =>
        have hclose := OpenParagraph.toList_close?_foldl t.start
          (t :: ts.takeWhile (·.kind.isInline))
        rw [List.foldl_cons] at hclose
        simp only [Option.getD_none, hclose, blocks_of_isInline ts hinline]
      | some p => rfl

end Builder

theorem ne_finish_of_mem_takeWhile {ts : List Token} :
    ∀ t ∈ ts.takeWhile (·.kind != .finish), t.kind ≠ .finish := by
  intro t ht
  simpa using List.mem_takeWhile_imp ht

theorem children_ofTokens (ts : List Token) :
    (ofTokens ts).children = blocks (ts.takeWhile (·.kind != .finish)) := by
  show ((ts.takeWhile (·.kind != .finish)).foldl Builder.add {}).closeParagraph.blocks.reverse = _
  rw [Builder.reverse_blocks_foldl _ ne_finish_of_mem_takeWhile]
  rfl

/-- The opener stack builds the tree that plain recursion builds. -/
theorem ofTokens_eq_blocks (ts : List Token) :
    ofTokens ts = branch .root 0 (blocks (ts.takeWhile (·.kind != .finish))) := by
  rw [← children_ofTokens]
  rfl

end DocComment.Node
