import DocComment.Proofs.ScannerSteps
import Mathlib.Data.List.Chain

/-!
# The tokens of a text

`Token.WellFormed text ts` collects what holds of the tokens `ts` of a whole text: one token ends
the stream, every token is the slice of the text at its span, and nothing but line breaks lies in
front of the first token and between two tokens. `Token.wellFormed_scan` says so for every text
whose offsets fit in 32 bits, and that pulling tokens one by one gives these tokens and then none.
-/

namespace DocComment

namespace Token

/-- The span of a token covers in a text what the token says, within the text and without
overflow. -/
structure InText (text : Text) (t : Token) : Prop where
  stop_eq : t.span.stop.toNat = t.span.start.toNat + Text.size t.value
  stop_le : t.span.stop.toNat ≤ Text.size text
  cut_start : (Text.cutAt? t.span.start.toNat text).isSome = true
  cut_stop : (Text.cutAt? t.span.stop.toNat text).isSome = true
  slice_eq : t.span.slice text = t.value

/-- The token `u` comes next behind the token `t` in a text. -/
structure Follows (text : Text) (t u : Token) : Prop where
  stop_le : t.span.stop ≤ u.span.start
  stop_eq : u.kind.isInline = true → t.span.stop = u.span.start
  newlines : u.kind.isInline = false → Newlines (Span.slice ⟨t.span.stop, u.span.start⟩ text)

structure WellFormed (text : Text) (ts : List Token) : Prop where
  /-- One token ends the stream, at the end of the text. -/
  finish : ∃ init last, ts = init ++ [last] ∧ (∀ t ∈ init, t.kind ≠ .finish) ∧
    last.kind = .finish ∧ last.span.start.toNat = Text.size text ∧
      last.span.stop.toNat = Text.size text
  inText : ∀ t ∈ ts, InText text t
  value_eq_nil_iff : ∀ t ∈ ts, t.value = [] ↔ t.kind = .paragraph ∨ t.kind = .finish
  leading : ∀ t ∈ ts.head?, Newlines (Span.slice ⟨0, t.span.start⟩ text)
  follows : ts.IsChain (Follows text)
  /-- An inline token comes next behind the beginning of a paragraph, at the same offset. -/
  paragraph : ∀ before t after, ts = before ++ t :: after → t.kind = .paragraph →
    ∃ u rest, after = u :: rest ∧ u.kind.isInline = true ∧ u.value ≠ [] ∧
      u.span.start = t.span.start
  length_le : ts.length ≤ 2 * Text.size text + 1

theorem inText_ofText {text v : Text} {k : Nat} {kind : Kind} (hsize : Text.size text < UInt32.size)
    (h : Text.StandsAt text k v) : InText text (.ofText kind v k.toUInt32) := by
  have hle := h.add_size_le
  have hstart := toNat_start kind (Nat.lt_of_le_of_lt hle hsize)
  have hstop := toNat_stop kind (Nat.lt_of_le_of_lt hle hsize)
  refine ⟨?_, ?_, ?_, ?_, ?_⟩
  · rw [hstop, hstart]
    rfl
  · rwa [hstop]
  · rw [hstart]
    exact h.cutAt?_isSome
  · rw [hstop]
    exact h.stop.cutAt?_isSome
  · refine Span.slice_eq v ?_ (by rw [hstop, hstart])
    rw [hstart]
    exact h

theorem follows_ofText {text v gap u : Text} {k : Nat} {kind kind' : Kind}
    (hsize : Text.size text < UInt32.size) (h : Text.StandsAt text k (v ++ (gap ++ u)))
    (hgap : Newlines gap) (hinline : kind'.isInline = true → gap = []) :
    Follows text (.ofText kind v k.toUInt32)
      (.ofText kind' u (k + Text.size v + Text.size gap).toUInt32) := by
  have hle := h.right.right.add_size_le
  have hstop := toNat_stop kind (n := k) (v := v) (by omega)
  have hstart := toNat_start kind' (Nat.lt_of_le_of_lt hle hsize)
  refine ⟨?_, fun hk => ?_, fun _ => ?_⟩
  · rw [UInt32.le_iff_toNat_le, hstop, hstart]
    omega
  · apply UInt32.toNat.inj
    rw [hstop, hstart, hinline hk]
    rfl
  · rw [Span.slice_eq gap ?_ ?_]
    · exact hgap
    · rw [hstop]
      exact h.right.left
    · rw [hstart, hstop]

namespace Stream
variable {m : Context} {n : Nat} {text rest : Text} {ts : List Token}

/-- The first token of a stream, with the line breaks in front of it. -/
theorem exists_head (h : Stream m n rest ts) :
    ∃ gap kind v rest' ts', rest = gap ++ (v ++ rest') ∧ Newlines gap ∧
      ts = .ofText kind v (n + Text.size gap).toUInt32 :: ts' ∧
      (kind.isInline = true → gap = []) ∧ (m = .opened → kind.isInline = true ∧ v ≠ []) := by
  cases h with
  | finish hm hgap => exact ⟨rest, .finish, [], [], [], by simp, hgap, rfl, nofun, fun h => absurd h hm⟩
  | @indented _ _ gap v rest' ts' hm hgap =>
    exact ⟨gap, .indented, v, rest', ts', rfl, hgap, rfl, nofun, fun h => absurd h hm⟩
  | @paragraph _ _ gap rest' ts' hm hgap =>
    exact ⟨gap, .paragraph, [], rest', ts', rfl, hgap, rfl, nofun, fun h => absurd h hm⟩
  | @inline _ _ kind v rest' ts' hm hkind hv =>
    exact ⟨[], kind, v, rest', ts', rfl, .nil, rfl, fun _ => rfl, fun _ => ⟨hkind, hv.ne_nil hkind⟩⟩

/-- Only line breaks lie in front of the first token of a whole text. -/
theorem newlines_leading (h : Stream m 0 text ts) (hsize : Text.size text < UInt32.size) {t : Token}
    (ht : t ∈ ts.head?) : Newlines (Span.slice ⟨0, t.span.start⟩ text) := by
  obtain ⟨gap, kind, v, rest', ts', rfl, hgap, rfl, -, -⟩ := h.exists_head
  obtain rfl : ofText kind v (0 + Text.size gap).toUInt32 = t := Option.some.inj ht
  have htext := Text.StandsAt.self (gap ++ (v ++ rest'))
  have hstart := toNat_start kind (Nat.lt_of_le_of_lt htext.right.left.add_size_le hsize)
  rw [Span.slice_eq gap htext.left hstart]
  exact hgap

theorem isChain_cons (hsize : Text.size text < UInt32.size) {v : Text} {kind : Kind} {k : Nat}
    (h : Stream m (k + Text.size v) rest ts) (hrest : Text.StandsAt text k (v ++ rest))
    (hchain : ts.IsChain (Follows text)) :
    (ofText kind v k.toUInt32 :: ts).IsChain (Follows text) := by
  obtain ⟨gap, kind', u, rest', ts', rfl, hgap, rfl, hinline, -⟩ := h.exists_head
  have hstands : Text.StandsAt text k ((v ++ (gap ++ u)) ++ rest') := by simpa using hrest
  exact .cons_cons (follows_ofText hsize hstands.left hgap hinline) hchain

theorem isChain (h : Stream m n rest ts) (hsize : Text.size text < UInt32.size)
    (hrest : Text.StandsAt text n rest) : ts.IsChain (Follows text) := by
  induction h with
  | finish _ _ => exact .singleton _
  | indented _ _ _ htail ih =>
    exact htail.isChain_cons hsize hrest.right (ih hrest.right.right)
  | paragraph _ _ htail ih =>
    exact htail.isChain_cons hsize (v := []) hrest.right (ih hrest.right)
  | inline _ _ _ htail ih => exact htail.isChain_cons hsize hrest (ih hrest.right)

theorem exists_finish (h : Stream m n rest ts) :
    ∃ init, ts = init ++ [ofText .finish [] (n + Text.size rest).toUInt32] ∧
      ∀ t ∈ init, t.kind ≠ .finish := by
  induction h with
  | finish _ _ => exact ⟨[], rfl, by simp⟩
  | @indented m n gap v rest ts _ _ _ _ ih =>
    obtain ⟨init, rfl, hinit⟩ := ih
    refine ⟨ofText .indented v (n + Text.size gap).toUInt32 :: init, ?_, ?_⟩
    · simp [Nat.add_assoc]
    · simpa [ofText] using hinit
  | @paragraph m n gap rest ts _ _ _ ih =>
    obtain ⟨init, rfl, hinit⟩ := ih
    refine ⟨ofText .paragraph [] (n + Text.size gap).toUInt32 :: init, ?_, ?_⟩
    · simp [Nat.add_assoc]
    · simpa [ofText] using hinit
  | @inline m n kind v rest ts _ hkind _ _ ih =>
    obtain ⟨init, rfl, hinit⟩ := ih
    have hne : kind ≠ .finish := by rintro rfl; cases hkind
    refine ⟨ofText kind v n.toUInt32 :: init, ?_, ?_⟩
    · simp [Nat.add_assoc]
    · simpa [ofText] using ⟨hne, hinit⟩

theorem exists_inline_of_paragraph (h : Stream m n rest ts) {before after : List Token} {t : Token}
    (hts : ts = before ++ t :: after) (ht : t.kind = .paragraph) :
    ∃ u rest, after = u :: rest ∧ u.kind.isInline = true ∧ u.value ≠ [] ∧
      u.span.start = t.span.start := by
  induction h generalizing before with
  | finish _ _ =>
    rcases List.cons_eq_append_iff.1 hts with ⟨-, heq⟩ | ⟨before', -, heq⟩
    · cases heq
      cases ht
    · simp at heq
  | indented _ _ _ _ ih =>
    rcases List.cons_eq_append_iff.1 hts with ⟨-, heq⟩ | ⟨before', -, heq⟩
    · cases heq
      cases ht
    · exact ih heq
  | paragraph _ _ htail ih =>
    rcases List.cons_eq_append_iff.1 hts with ⟨-, heq⟩ | ⟨before', -, heq⟩
    · cases heq
      obtain ⟨gap, kind, v, -, ts', -, -, rfl, hgap, hopened⟩ := htail.exists_head
      obtain ⟨hkind, hv⟩ := hopened rfl
      rw [hgap hkind]
      exact ⟨_, ts', rfl, hkind, hv, rfl⟩
    · exact ih heq
  | inline _ hkind _ _ ih =>
    rcases List.cons_eq_append_iff.1 hts with ⟨-, heq⟩ | ⟨before', -, heq⟩
    · cases heq
      cases ht
      cases hkind
    · exact ih heq

/-- A token takes a byte at least, but for the last one and those at the beginnings of paragraphs,
each of which has a token to itself that takes some. -/
theorem length_le (h : Stream m n rest ts) :
    ts.length + (if m = .opened then 1 else 0) ≤ 2 * Text.size rest + 1 := by
  induction h with
  | finish hm _ => simp [hm]
  | @indented m n gap v rest ts hm _ hv _ ih =>
    have hpos := Text.size_pos hv.ne_nil_of_indented
    rw [if_neg (by decide)] at ih
    rw [if_neg hm, List.length_cons, Text.size_append, Text.size_append]
    omega
  | paragraph hm _ _ ih =>
    rw [if_pos rfl] at ih
    rw [if_neg hm, List.length_cons, Text.size_append]
    omega
  | @inline m n kind v rest ts _ hkind hv _ ih =>
    have hpos := Text.size_pos (hv.ne_nil hkind)
    rw [if_neg (by decide)] at ih
    rw [List.length_cons, Text.size_append]
    split <;> omega

end Stream

end Token

/-! ### Pulling tokens one by one -/

namespace Scanner

theorem tokens_of_next?_eq_some {s s' : Scanner} {t : Token} (h : s.next? = some (t, s')) :
    s.tokens = t :: s'.tokens := by
  rw [tokens]
  split
  · next hnone => rw [h] at hnone; cases hnone
  · next hsome =>
    rw [h] at hsome
    cases hsome
    rfl

theorem next?_eq_none_iff_tokens {s : Scanner} : s.next? = none ↔ s.tokens = [] := by
  constructor
  · exact tokens_of_next?_eq_none
  · intro h
    cases hnext : s.next? with
    | none => rfl
    | some p =>
      obtain ⟨t, s'⟩ := p
      rw [tokens_of_next?_eq_some hnext] at h
      cases h

/-- Each pull gives the next token, and none behind the last one. -/
theorem nth_eq (n : Nat) (s : Scanner) :
    (s.nth n).1 = s.tokens[n]? ∧ (s.nth n).2.tokens = s.tokens.drop (n + 1) := by
  induction n generalizing s with
  | zero =>
    unfold nth
    split
    · next hnone => simp [tokens_of_next?_eq_none hnone]
    · next hsome => simp [tokens_of_next?_eq_some hsome]
  | succ n ih =>
    unfold nth
    split
    · next hnone => simp [tokens_of_next?_eq_none hnone]
    · next t s' hsome =>
      rw [tokens_of_next?_eq_some hsome]
      simpa using ih s'

end Scanner

namespace Token

/-- The tokens of a text are well-formed, and pulling hands out these tokens and then none. -/
theorem wellFormed_scan (text : Text) (hsize : Text.size text < UInt32.size) :
    WellFormed text (scan text) ∧
      ∀ n, ((Scanner.ofText text).nth n).1 = (scan text)[n]? ∧
        ((scan text).length ≤ n + 1 → ((Scanner.ofText text).nth n).2.next? = none) := by
  have hstream := stream_scan text
  have htext := Text.StandsAt.self text
  refine ⟨⟨?_, ?_, ?_, ?_, ?_, ?_, ?_⟩, fun n => ⟨?_, fun hn => ?_⟩⟩
  · obtain ⟨init, hts, hinit⟩ := hstream.exists_finish
    rw [Nat.zero_add] at hts
    exact ⟨init, _, hts, hinit, rfl, toNat_start _ hsize, toNat_stop _ hsize⟩
  · intro t ht
    obtain ⟨-, k, heq, hk⟩ := hstream.standsAt htext ht
    rw [heq]
    exact inText_ofText hsize hk
  · intro t ht
    exact (hstream.standsAt htext ht).1.eq_nil_iff
  · exact fun t ht => hstream.newlines_leading hsize ht
  · exact hstream.isChain hsize htext
  · intro before t after hts ht
    exact hstream.exists_inline_of_paragraph hts ht
  · exact hstream.length_le
  · exact (Scanner.nth_eq n _).1
  · rw [Scanner.next?_eq_none_iff_tokens, (Scanner.nth_eq n _).2]
    exact List.drop_of_length_le hn

theorem wellFormed_scan_mixed :
    Text.size "é *b* http://a.io/x\r\n\r\n\tc\n`d".toList < UInt32.size ∧
      WellFormed "é *b* http://a.io/x\r\n\r\n\tc\n`d".toList
        (scan "é *b* http://a.io/x\r\n\r\n\tc\n`d".toList) :=
  ⟨by decide, (wellFormed_scan _ (by decide)).1⟩

end Token

end DocComment
