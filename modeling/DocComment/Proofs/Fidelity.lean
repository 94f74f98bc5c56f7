import DocComment.Proofs.InlineSource
import DocComment.Proofs.ScannerSteps

/-!
# The tree of a text holds all of it

`Node.faithful_ofText`: the inline nodes of a paragraph are the text at its position, each of them
at the offset where it stands there, and the parts of the text that the blocks are made from come
in order and leave out nothing but line breaks.

The blocks of a stream of tokens are read off run by run (`Token.Stream.exists_run`), which gives a
division of the text into parts and line breaks (`Node.Tiles`).
-/

namespace DocComment

namespace Token

theorem Run.isInline {n : Nat} {v : Text} {ts : List Token} (h : Run n v ts) :
    ∀ t ∈ ts, t.kind.isInline = true := by
  induction h with
  | nil => simp
  | cons hkind _ _ ih => simpa [ofText] using ⟨hkind, ih⟩

theorem Run.ne_nil {n : Nat} {v : Text} {ts : List Token} (h : Run n v ts) (hts : ts ≠ []) :
    v ≠ [] := by
  cases h with
  | nil => exact absurd rfl hts
  | cons hkind hv _ => simp [hv.ne_nil hkind]

namespace Stream
variable {m : Context} {n : Nat} {rest : Text} {ts : List Token}

/-- A stream begins with a run of inline tokens, behind which it stands between blocks. -/
theorem exists_run (h : Stream m n rest ts) :
    ∃ run ts' v rest', ts = run ++ ts' ∧ rest = v ++ rest' ∧ Run n v run ∧
      (m = .opened → run ≠ []) ∧ Stream .between (n + Text.size v) rest' ts' := by
  induction h with
  | finish hm hgap =>
    exact ⟨[], _, [], _, rfl, rfl, .nil, fun h => absurd h hm, .finish (by decide) hgap⟩
  | indented hm hgap hv hrest =>
    exact ⟨[], _, [], _, rfl, rfl, .nil, fun h => absurd h hm, .indented (by decide) hgap hv hrest⟩
  | paragraph hm hgap hrest =>
    exact ⟨[], _, [], _, rfl, rfl, .nil, fun h => absurd h hm, .paragraph (by decide) hgap hrest⟩
  | @inline _ n kind v _ _ _ hkind hv _ ih =>
    obtain ⟨run, ts', v', rest', rfl, rfl, hrun, -, hrest⟩ := ih
    refine ⟨ofText kind v n.toUInt32 :: run, ts', v ++ v', rest', rfl, by simp,
      .cons hkind hv hrun, fun _ => List.cons_ne_nil _ _, ?_⟩
    rwa [Text.size_append, ← Nat.add_assoc]

theorem isInline_head (h : Stream .between n rest ts) :
    ∀ t ∈ (ts.takeWhile (·.kind != .finish)).head?, t.kind.isInline = false := by
  cases h with
  | finish _ _ => simp [ofText]
  | indented _ _ _ _ => simp [ofText, Kind.isInline]
  | paragraph _ _ _ => simp [ofText, Kind.isInline]
  | inline hm _ _ _ => exact absurd rfl hm

end Stream

end Token

namespace Node

theorem blocks_run {t : Token} (ht : t.kind = .paragraph) {run ts : List Token} (hrun : run ≠ [])
    (hinline : ∀ u ∈ run, u.kind.isInline = true)
    (hts : ∀ u ∈ ts.head?, u.kind.isInline = false) :
    blocks (t :: (run ++ ts)) = branch .paragraph t.start (inlines run) :: blocks ts := by
  rw [blocks_paragraph_append ht hinline hts, paragraph, if_neg (by simpa)]
  rfl

/-- The block `b` is made from the part `v` of a text, at the offset `k`, with the tokens `ts`. -/
inductive MadeFrom (ts : List Token) : Node → Nat → Text → Prop
  | paragraph {k : Nat} {v : Text} {run : List Token} : run ≠ [] → Token.Run k v run →
      MadeFrom ts (branch .paragraph k.toUInt32 (inlines run)) k v
  | indented {k : Nat} {v : Text} : Token.ofText .indented v k.toUInt32 ∈ ts → v ≠ [] →
      MadeFrom ts (ofIndented (.ofText .indented v k.toUInt32)) k v

namespace MadeFrom
variable {ts : List Token} {b : Node} {k : Nat} {v : Text}

theorem ne_nil (h : MadeFrom ts b k v) : v ≠ [] := by
  cases h with
  | paragraph hne hrun => exact hrun.ne_nil hne
  | indented _ hv => exact hv

theorem exists_run (h : MadeFrom ts b k v) (hkind : b.kind = .paragraph) :
    ∃ run, Token.Run k v run ∧ b.children = inlines run := by
  cases h with
  | @paragraph _ _ run _ hrun => exact ⟨run, hrun, rfl⟩
  | indented _ _ => cases hkind

theorem toNat_pos {text : Text} (h : MadeFrom ts b k v) (hsize : Text.size text < UInt32.size)
    (hv : Text.StandsAt text k v) : b.pos.toNat = k := by
  have hpos : b.pos = k.toUInt32 := by cases h <;> rfl
  rw [hpos]
  exact hv.toNat_toUInt32 hsize

end MadeFrom

/-- Blocks, each with the part it is made from, that leave out nothing but line breaks of a text,
which begins at the offset `n`. -/
inductive Tiles (ts : List Token) : Nat → Text → List (Node × Text) → Prop
  | nil {n : Nat} {gap : Text} : Newlines gap → Tiles ts n gap []
  | cons {n : Nat} {gap v rest : Text} {b : Node} {ps : List (Node × Text)} : Newlines gap →
      MadeFrom ts b (n + Text.size gap) v → Tiles ts (n + Text.size gap + Text.size v) rest ps →
      Tiles ts n (gap ++ (v ++ rest)) ((b, v) :: ps)

end Node

/-- The blocks of a stream tile its text. -/
theorem Token.Stream.exists_tiles {all : List Token} {n : Nat} {rest : Text} {ts : List Token}
    (h : Stream .between n rest ts) (hall : ts ⊆ all) :
    ∃ ps, ps.map Prod.fst = Node.blocks (ts.takeWhile (·.kind != .finish)) ∧
      Node.Tiles all n rest ps := by
  -- the stream behind a run is shorter, though not the tail of the stream
  induction hlen : ts.length using Nat.strong_induction_on generalizing n rest ts with
  | _ len ih =>
    subst hlen
    cases h with
    | finish _ hgap => exact ⟨[], by simp [ofText, Node.blocks], .nil hgap⟩
    | @indented _ _ gap v rest ts _ hgap hv hrest =>
      obtain ⟨ht, hall⟩ := List.cons_subset.1 hall
      obtain ⟨ps, hps, htiles⟩ := ih ts.length (by simp) hrest hall rfl
      refine ⟨_, ?_, .cons hgap (.indented ht hv.ne_nil_of_indented) htiles⟩
      rw [List.map_cons, hps, List.takeWhile_cons_of_pos (by simp [ofText]),
        Node.blocks_of_indented _ rfl]
    | @paragraph _ _ gap rest ts _ hgap hrest =>
      obtain ⟨run, ts', v, rest', rfl, rfl, hrun, hne, hrest⟩ := hrest.exists_run
      have hall' : ts' ⊆ all := fun u hu => hall (by simp [hu])
      have hlt : ts'.length < (run ++ ts').length + 1 := by
        rw [List.length_append]
        omega
      obtain ⟨ps, hps, htiles⟩ := ih ts'.length hlt hrest hall' rfl
      have hfinish : ∀ u ∈ run, (u.kind != .finish) = true := fun u hu => by
        have hinline := hrun.isInline u hu
        rw [bne_iff_ne]
        intro hk
        rw [hk] at hinline
        cases hinline
      refine ⟨_, ?_, .cons hgap (.paragraph (hne rfl) hrun) htiles⟩
      rw [List.map_cons, hps, List.takeWhile_cons_of_pos (by simp [ofText]),
        List.takeWhile_append_of_pos hfinish,
        Node.blocks_run rfl (hne rfl) hrun.isInline hrest.isInline_head]
      rfl
    | inline hm _ _ _ => exact absurd rfl hm

namespace Node

namespace Tiles
variable {text rest : Text} {ts : List Token} {n : Nat} {ps : List (Node × Text)}

/-- Every block stands where the part it is made from begins. -/
theorem standsAt (h : Tiles ts n rest ps) (hsize : Text.size text < UInt32.size)
    (hrest : Text.StandsAt text n rest) {q : Node × Text} (hq : q ∈ ps) :
    n ≤ q.1.pos.toNat ∧ MadeFrom ts q.1 q.1.pos.toNat q.2 ∧
      Text.StandsAt text q.1.pos.toNat q.2 := by
  induction h with
  | nil _ => cases hq
  | @cons n gap v rest b ps _ hb _ ih =>
    rcases List.mem_cons.1 hq with rfl | hq
    · have hv := hrest.right.left
      rw [hb.toNat_pos hsize hv]
      exact ⟨Nat.le_add_right _ _, hb, hv⟩
    · obtain ⟨hle, hmade, hstands⟩ := ih hrest.right.right hq
      exact ⟨by omega, hmade, hstands⟩

theorem pairwise (h : Tiles ts n rest ps) (hsize : Text.size text < UInt32.size)
    (hrest : Text.StandsAt text n rest) :
    ps.Pairwise fun q r => q.1.pos < r.1.pos ∧ q.1.pos.toNat + Text.size q.2 ≤ r.1.pos.toNat := by
  induction h with
  | nil _ => exact .nil
  | @cons n gap v rest b ps _ hb htiles ih =>
    have hpos := hb.toNat_pos hsize hrest.right.left
    have hv := Text.size_pos hb.ne_nil
    refine .cons (fun r hr => ?_) (ih hrest.right.right)
    have hle := (htiles.standsAt hsize hrest.right.right hr).1
    rw [UInt32.lt_iff_toNat_lt, hpos]
    exact ⟨by omega, hle⟩

/-- A character is in the part of a block or a line break. -/
theorem covers (h : Tiles ts n rest ps) (hsize : Text.size text < UInt32.size)
    (hrest : Text.StandsAt text n rest) {before after : Text} {c : Char}
    (hc : rest = before ++ c :: after) :
    isNewline c = true ∨ ∃ q ∈ ps, q.1.pos.toNat ≤ n + Text.size before ∧
      n + Text.size before + c.utf8Size ≤ q.1.pos.toNat + Text.size q.2 := by
  induction h generalizing before with
  | nil hgap =>
    rw [hc] at hgap
    exact .inl (hgap c (by simp))
  | @cons n gap v rest b ps hgap hb _ ih =>
    have hpos := hb.toNat_pos hsize hrest.right.left
    rcases Text.exists_of_append_eq hc with ⟨w, rfl⟩ | ⟨w, rfl, hvrest⟩
    · exact .inl (hgap c (by simp))
    · rcases Text.exists_of_append_eq hvrest with ⟨u, rfl⟩ | ⟨u, rfl, hrest'⟩
      · refine .inr ⟨_, List.mem_cons_self, ?_, ?_⟩
        · rw [hpos, Text.size_append]
          omega
        · rw [hpos, Text.size_append, Text.size_append, Text.size_cons]
          omega
      · rcases ih hrest.right.right hrest' with hc | ⟨q, hq, hle⟩
        · exact .inl hc
        · refine .inr ⟨q, List.mem_cons_of_mem _ hq, ?_⟩
          simpa only [Text.size_append, Nat.add_assoc] using hle

end Tiles

/-- The part of a text that a block of its tree stands for: the source of a paragraph, or the token
of preformatted lines. -/
inductive Covers (text : Text) : Node → Text → Prop
  | paragraph (pos : UInt32) (ns : List Node) :
      Covers text (branch .paragraph pos ns) (sources ns)
  | preformatted {t : Token} : t ∈ Token.scan text → t.kind = .indented →
      Covers text (ofIndented t) t.value

theorem MadeFrom.covers {text v : Text} {b : Node} {k : Nat}
    (h : MadeFrom (Token.scan text) b k v) : Covers text b v := by
  cases h with
  | @paragraph k v run _ hrun =>
    have hcovers : Covers text (branch .paragraph k.toUInt32 (inlines run)) (sources (inlines run)) :=
      .paragraph _ _
    rwa [hrun.sources_inlines] at hcovers
  | indented ht _ => exact .preformatted ht rfl

/-- The blocks `bs` hold the whole of a text. -/
structure Faithful (text : Text) (bs : List Node) : Prop where
  sources : ∀ p ∈ bs, p.kind = .paragraph → Text.StandsAt text p.pos.toNat (sources p.children)
  located : ∀ p ∈ bs, p.kind = .paragraph → ∀ m ∈ locatedAll p.pos.toNat p.children,
    m.1.kind.isInline = true ∧ m.1.pos.toNat = m.2 ∧ Text.StandsAt text m.2 m.1.source
  /-- The blocks stand for parts of the text in order, and all else is line breaks. -/
  parts : ∃ ps : List (Node × Text), ps.map Prod.fst = bs ∧
    (∀ q ∈ ps, Covers text q.1 q.2 ∧ q.2 ≠ [] ∧ Text.StandsAt text q.1.pos.toNat q.2) ∧
    (ps.Pairwise fun q r => q.1.pos < r.1.pos ∧
      q.1.pos.toNat + Text.size q.2 ≤ r.1.pos.toNat) ∧
    ∀ before c after, text = before ++ c :: after → isNewline c = true ∨
      ∃ q ∈ ps, q.1.pos.toNat ≤ Text.size before ∧
        Text.size before + c.utf8Size ≤ q.1.pos.toNat + Text.size q.2

/-- The tree of a text holds the whole of it. -/
theorem faithful_ofText (text : Text) (hsize : Text.size text < UInt32.size) :
    Faithful text (ofText text).children := by
  have htext := Text.StandsAt.self text
  obtain ⟨ps, hps, htiles⟩ :=
    (Token.stream_scan text).exists_tiles (List.Subset.refl (Token.scan text))
  have hchildren : ps.map Prod.fst = (ofText text).children := by
    rw [hps, ofText, children_ofTokens]
  have hparagraph : ∀ p ∈ (ofText text).children, p.kind = .paragraph →
      ∃ v run, Token.Run p.pos.toNat v run ∧ p.children = inlines run ∧
        Text.StandsAt text p.pos.toNat v := by
    intro p hp hkind
    rw [← hchildren] at hp
    obtain ⟨⟨b, v⟩, hq, rfl⟩ := List.mem_map.1 hp
    obtain ⟨-, hmade, hv⟩ := htiles.standsAt hsize htext hq
    obtain ⟨run, hrun, hnodes⟩ := hmade.exists_run hkind
    exact ⟨v, run, hrun, hnodes, hv⟩
  refine ⟨?_, ?_, ps, hchildren, ?_, htiles.pairwise hsize htext, ?_⟩
  · intro p hp hkind
    obtain ⟨v, run, hrun, hnodes, hv⟩ := hparagraph p hp hkind
    rw [hnodes, hrun.sources_inlines]
    exact hv
  · intro p hp hkind
    obtain ⟨v, run, hrun, hnodes, hv⟩ := hparagraph p hp hkind
    rw [hnodes]
    exact hrun.located_inlines hsize hv
  · intro q hq
    obtain ⟨-, hmade, hv⟩ := htiles.standsAt hsize htext hq
    exact ⟨hmade.covers, hmade.ne_nil, hv⟩
  · intro before c after hc
    simpa using htiles.covers hsize htext hc

theorem faithful_ofText_crossed :
    Text.size "a **b *c** [d](http://e.io) `f*\r\n\n  g".toList < UInt32.size ∧
      Faithful "a **b *c** [d](http://e.io) `f*\r\n\n  g".toList
        (ofText "a **b *c** [d](http://e.io) `f*\r\n\n  g".toList).children :=
  ⟨by decide, faithful_ofText _ (by decide)⟩

end Node

end DocComment
