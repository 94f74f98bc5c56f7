import DocComment.Proofs.InlineSource
import DocComment.Proofs.Lines
import DocComment.Proofs.Prose
import DocComment.Proofs.ScannerSteps

/-!
# The tokens of a text, block by block

`Block.layout` lists the tokens of a text without scanning it: the blocks come from the kinds of the
lines, and the tokens inside a paragraph from `Prose.lexemes` on the text of that paragraph.
`Block.layoutProse` lists what is left when a part of a paragraph has been read. The lemmas say what
each of the two is in front of a line break, a marker, a URL and so on.
-/

namespace DocComment

namespace Token

/-- The tokens of lexemes that follow each other from the offset `n` on. -/
def place (n : Nat) : List (Kind × Text) → List Token
  | [] => []
  | (kind, v) :: ls => ofText kind v n.toUInt32 :: place (n + Text.size v) ls

@[simp] theorem place_nil (n : Nat) : place n [] = [] := rfl

@[simp] theorem place_cons (n : Nat) (kind : Kind) (v : Text) (ls : List (Kind × Text)) :
    place n ((kind, v) :: ls) = ofText kind v n.toUInt32 :: place (n + Text.size v) ls := rfl

theorem place_append (n : Nat) (ls ms : List (Kind × Text)) :
    place n (ls ++ ms) = place n ls ++ place (n + Text.size (ls.flatMap (·.2))) ms := by
  induction ls generalizing n with
  | nil => rfl
  | cons l ls ih =>
    obtain ⟨kind, v⟩ := l
    rw [List.cons_append, place_cons, place_cons, ih, List.flatMap_cons, Text.size_append,
      Nat.add_assoc]
    rfl

theorem mem_of_mem_place {n : Nat} {ls : List (Kind × Text)} {t : Token}
    (h : t ∈ place n ls) : (t.kind, t.value) ∈ ls := by
  induction ls generalizing n with
  | nil => cases h
  | cons l ls ih =>
    rcases List.mem_cons.1 h with rfl | h
    · exact List.mem_cons_self
    · exact List.mem_cons_of_mem _ (ih h)

theorem run_place {n : Nat} {ls : List (Kind × Text)}
    (hkind : ∀ t ∈ place n ls, t.kind.isInline = true)
    (hlexeme : ∀ t ∈ place n ls, Lexeme t.kind t.value) :
    Run n (ls.flatMap (·.2)) (place n ls) := by
  induction ls generalizing n with
  | nil => exact .nil
  | cons l ls ih =>
    rw [place_cons] at hkind hlexeme
    obtain ⟨hk, hkind⟩ := List.forall_mem_cons.1 hkind
    obtain ⟨hv, hlexeme⟩ := List.forall_mem_cons.1 hlexeme
    exact .cons hk hv (ih hkind hlexeme)

end Token

namespace Url

/-- A named link lies on one line. -/
theorem exists_of_linkLength?_cons {c : Char} {t : Text} {n : Nat}
    (h : linkLength? (c :: t) = some n) :
    ∃ v w, t = v ++ w ∧ n = v.length + 1 ∧ ∀ d ∈ v, isNewline d = false := by
  obtain ⟨u, w, hsplit, rfl, hu⟩ := exists_isLink_of_linkLength? h
  cases u with
  | nil => exact absurd h (linkLength?_ne_zero _)
  | cons d v =>
    rw [List.cons_append] at hsplit
    obtain ⟨rfl, rfl⟩ := List.cons.inj hsplit
    refine ⟨v, w, rfl, rfl, fun e he => ?_⟩
    rw [← Bool.not_eq_true]
    intro hnewline
    exact hu.newline_not_mem hnewline (List.mem_cons_of_mem _ he)

end Url

namespace Prose
open Markup (startsWith breakLength prose afterProse)
open Scanner (isSpecial)

variable {glued : Bool} {held t : Text}

/-- A URL lies on one line. -/
theorem line_of_url? {scheme n : Nat} (h : url? glued held (':' :: t) = some (scheme, n)) :
    ∃ v w, t = v ++ w ∧ n = v.length ∧ ∀ d ∈ v, isNewline d = false := by
  unfold url? at h
  extract_lets word at h
  split at h
  · cases h
  · split at h
    · next hscheme =>
      obtain ⟨k, hk, heq⟩ := Option.map_eq_some_iff.1 h
      obtain ⟨rfl, rfl⟩ := Prod.mk.inj heq
      obtain ⟨u, w, hsplit, rfl, hu⟩ := Url.exists_isUrl_of_length? hk
      have hlt := hu.lt_length hsplit
        (Url.colon_not_mem_of_mem_schemes (List.contains_iff_mem.1 hscheme))
      -- the URL goes beyond the colon
      obtain ⟨tail, rfl⟩ : word <+: u := by
        have hword : word <+: word ++ ':' :: t := List.prefix_append _ _
        rw [hsplit] at hword
        exact List.prefix_of_prefix_length_le hword (List.prefix_append _ _) (Nat.le_of_lt hlt)
      rw [List.append_assoc, List.append_cancel_left_eq] at hsplit
      cases tail with
      | nil => simp at hlt
      | cons c v =>
        rw [List.cons_append] at hsplit
        obtain ⟨rfl, rfl⟩ := List.cons.inj hsplit
        refine ⟨v, w, rfl, ?_, fun d hd => ?_⟩
        · simp only [List.length_append, List.length_cons]
          omega
        · rw [← Bool.not_eq_true]
          intro hnewline
          exact hu.newline_not_mem hnewline (by simp [hd])
    · cases h

/-- So the paragraph of a URL goes on behind it. -/
theorem exists_of_url? {scheme n : Nat} (h : url? glued held (':' :: t) = some (scheme, n)) :
    ∃ v w, t = v ++ w ∧ n = v.length ∧ prose t = v ++ prose w ∧ afterProse t = afterProse w := by
  obtain ⟨v, w, rfl, hn, hv⟩ := line_of_url? h
  exact ⟨v, w, rfl, hn, Markup.prose_append hv w⟩

/-- And so it does behind a token that a marker opens. -/
theorem exists_of_opened? {c : Char} {kind : Token.Kind} {n : Nat}
    (h : opened? c t = some (kind, n)) :
    ∃ v w, t = v ++ w ∧ n = v.length ∧ prose t = v ++ prose w ∧ afterProse t = afterProse w := by
  unfold opened? at h
  split at h
  · obtain ⟨k, hk, heq⟩ := Option.map_eq_some_iff.1 h
    obtain ⟨-, rfl⟩ := Prod.mk.inj heq
    refine ⟨t.take k, t.drop k, (List.take_append_drop _ _).symm, ?_,
      Markup.prose_of_codeLength? hk⟩
    obtain ⟨body, rest, -, rfl, rfl⟩ := Markup.exists_of_codeLength? hk
    simp
  · split at h
    · split at h
      · next hstar =>
        cases h
        obtain ⟨d, u, rfl, hd⟩ := Markup.exists_of_startsWith hstar
        obtain rfl := beq_iff_eq.1 hd
        exact ⟨['*'], u, rfl, rfl, Markup.prose_char rfl u, Markup.afterProse_char rfl u⟩
      · cases h
        exact ⟨[], t, rfl, rfl, rfl, rfl⟩
    · split at h
      · obtain ⟨k, hk, heq⟩ := Option.map_eq_some_iff.1 h
        obtain ⟨-, rfl⟩ := Prod.mk.inj heq
        obtain ⟨v, w, rfl, rfl, hv⟩ := Url.exists_of_linkLength?_cons hk
        exact ⟨v, w, rfl, rfl, Markup.prose_append hv w⟩
      · cases h

theorem isMarker_of_opened? {c : Char} {kind : Token.Kind} {n : Nat}
    (h : opened? c t = some (kind, n)) : Scanner.isMarker c = true := by
  unfold opened? at h
  split at h
  · next hc => simp [Scanner.isMarker, hc]
  · split at h
    · next hc => simp [Scanner.isMarker, hc]
    · split at h
      · next hc => simp [Scanner.isMarker, hc]
      · cases h

theorem opened?_of_isMarker_eq_false {c : Char} (h : Scanner.isMarker c = false) (t : Text) :
    opened? c t = none := by
  cases hopened : opened? c t with
  | none => rfl
  | some l => exact absurd (isMarker_of_opened? hopened) (by simp [h])

theorem of_isMarker {c : Char} (h : Scanner.isMarker c = true) :
    isSpecial c = true ∧ c ≠ ':' ∧ isNewline c = false := by
  refine ⟨by simp [isSpecial, h], ?_⟩
  simp only [Scanner.isMarker, Bool.or_eq_true, beq_iff_eq] at h
  rcases h with (rfl | rfl) | rfl <;> decide

theorem of_isNewline {c : Char} (h : isNewline c = true) :
    c ≠ ':' ∧ Scanner.isMarker c = false := by
  rcases Url.eq_of_isNewline h with rfl | rfl <;> decide

end Prose

/-! ### Blocks and their tokens -/

namespace Block
open Markup (startsWith breakLength indentedLength prose afterProse)
open Scanner (isSpecial)
open Prose (lexemes)

/-- The token that begins a block: the whole block if it is indented. -/
def token (b : Block) : Token :=
  match b.kind with
  | .paragraph => .ofText .paragraph [] b.start.toUInt32
  | .indented => .ofText .indented b.text b.start.toUInt32

def inlineTokens (b : Block) : List Token :=
  match b.kind with
  | .paragraph => Token.place b.start (lexemes false [] b.text)
  | .indented => []

/-- The tokens of a text that begins at the offset `n`. -/
def layout (n : Nat) (t : Text) : List Token :=
  (cut n t).flatMap (fun b => b.token :: b.inlineTokens) ++
    [.ofText .finish [] (n + Text.size t).toUInt32]

/-- The tokens from within a paragraph on: a stretch is held that begins at the offset `n`, and
`glued` says whether a word stands in front of it. -/
def layoutProse (glued : Bool) (held : Text) (n : Nat) (t : Text) : List Token :=
  Token.place n (lexemes glued held (prose t)) ++
    layout (n + Text.size held + Text.size (prose t)) (afterProse t)

variable (n : Nat) {glued : Bool} {held t : Text} {c : Char}

theorem layout_nil : layout n [] = [.ofText .finish [] n.toUInt32] := by
  rw [layout, cut_nil]
  rfl

theorem layout_newline (h : isNewline c = true) (t : Text) :
    layout n (c :: t) = layout (n + c.utf8Size) t := by
  rw [layout, cut_newline n h, Text.size_cons, ← Nat.add_assoc]
  rfl

theorem layout_newlines {gap : Text} (h : Newlines gap) (t : Text) :
    layout n (gap ++ t) = layout (n + Text.size gap) t := by
  induction gap generalizing n with
  | nil => rfl
  | cons c gap ih =>
    obtain ⟨hc, hgap⟩ := List.forall_mem_cons.1 h
    rw [List.cons_append, layout_newline n hc, ih _ hgap, Text.size_cons, Nat.add_assoc]

theorem layout_break (h : startsWith isNewline t = true) :
    layout n t = layout (n + Text.size (t.take (breakLength t))) (t.drop (breakLength t)) := by
  have hskip := layout_newlines n (Markup.newlines_take_breakLength h) (t.drop (breakLength t))
  rwa [List.take_append_drop] at hskip

theorem layout_indented (h : startsWith isIndent t = true) :
    layout n t = .ofText .indented (t.take (indentedLength t)) n.toUInt32 ::
      layout (n + Text.size (t.take (indentedLength t))) (t.drop (indentedLength t)) := by
  have hsize := congrArg Text.size (List.take_append_drop (indentedLength t) t)
  rw [Text.size_append] at hsize
  rw [layout, cut_indented n h, ← hsize, ← Nat.add_assoc]
  rfl

theorem layout_paragraph (h : startsWith (!isBlank ·) t = true) :
    layout n t = .ofText .paragraph [] n.toUInt32 :: layoutProse false [] n t := by
  have hsize := congrArg Text.size (Markup.prose_append_afterProse t)
  rw [Text.size_append] at hsize
  rw [layout, cut_prose n h, ← hsize, ← Nat.add_assoc, layoutProse, layout]
  simp [token, inlineTokens]

/-- Induction over a text, block by block. -/
theorem block_induction {P : Text → Prop} (nil : P [])
    (brk : ∀ t, startsWith isNewline t = true → P (t.drop (breakLength t)) → P t)
    (indented : ∀ t, startsWith isIndent t = true → P (t.drop (indentedLength t)) → P t)
    (paragraph : ∀ t, startsWith (!isBlank ·) t = true → P (afterProse t) → P t) (t : Text) :
    P t := by
  induction hlen : t.length using Nat.strong_induction_on generalizing t with
  | _ len ih =>
    subst hlen
    cases t with
    | nil => exact nil
    | cons c u =>
      cases hnewline : isNewline c with
      | true =>
        refine brk (c :: u) hnewline (ih _ ?_ _ rfl)
        have hpos := Scanner.breakLength_pos (c :: u)
        rw [List.length_drop, List.length_cons]
        omega
      | false =>
        cases hindent : isIndent c with
        | true =>
          refine indented (c :: u) hindent (ih _ ?_ _ rfl)
          rw [Markup.indentedLength_char hnewline, List.drop_succ_cons]
          exact Nat.lt_succ_of_le (List.drop_sublist _ _).length_le
        | false =>
          refine paragraph (c :: u) (by simp [startsWith, isBlank, hnewline, hindent])
            (ih _ ?_ _ rfl)
          rw [Markup.afterProse_char hnewline]
          exact Nat.lt_succ_of_le (List.drop_sublist _ _).length_le

/-! ### Inside a paragraph -/

theorem layoutProse_nil : layoutProse glued held n [] =
    Token.place n (Prose.flush held) ++ [.ofText .finish [] (n + Text.size held).toUInt32] := by
  rw [layoutProse, Markup.prose_nil, Markup.afterProse_nil, Prose.lexemes_nil, layout_nil]
  rfl

/-- Reading on without a token. -/
theorem layoutProse_read {m : Text} (hprose : prose (m ++ t) = m ++ prose t)
    (hafter : afterProse (m ++ t) = afterProse t)
    (h : lexemes glued held (m ++ prose t) = lexemes glued (m.reverse ++ held) (prose t)) :
    layoutProse glued held n (m ++ t) = layoutProse glued (m.reverse ++ held) n t := by
  rw [layoutProse, hprose, hafter, h, layoutProse]
  congr 2
  simp only [Text.size_append, Text.size_reverse]
  omega

theorem layoutProse_plain {m : Text} (h : ∀ c ∈ m, isSpecial c = false) (t : Text) :
    layoutProse glued held n (m ++ t) = layoutProse glued (m.reverse ++ held) n t := by
  have hnewline : ∀ c ∈ m, isNewline c = false := fun c hc =>
    Scanner.isNewline_of_isSpecial_eq_false (h c hc)
  obtain ⟨hprose, hafter⟩ := Markup.prose_append hnewline t
  exact layoutProse_read n hprose hafter (Prose.lexemes_append h)

theorem layoutProse_colon (h : Prose.url? glued held (':' :: t) = none) :
    layoutProse glued held n (':' :: t) = layoutProse glued (':' :: held) n t := by
  rw [← Prose.url?_prose] at h
  exact layoutProse_read n (m := [':']) (Markup.prose_char rfl t) (Markup.afterProse_char rfl t)
    (Prose.lexemes_colon h)

/-- A URL, and in front of it what is held without the scheme. -/
theorem layoutProse_url {scheme : Nat} {v w : Text}
    (h : Prose.url? glued held (':' :: (v ++ w)) = some (scheme, v.length))
    (hprose : prose (v ++ w) = v ++ prose w) (hafter : afterProse (v ++ w) = afterProse w) :
    layoutProse glued held n (':' :: (v ++ w)) =
      Token.place n (Prose.flush (held.drop scheme)) ++
        .ofText .url ((held.take scheme).reverse ++ ':' :: v)
            (n + Text.size (held.drop scheme)).toUInt32 ::
          layoutProse (Prose.endsInWord (':' :: v)) [] (n + Text.size held + Text.size (':' :: v))
            w := by
  have hstop : n + Text.size (held.drop scheme) +
      Text.size ((held.take scheme).reverse ++ ':' :: v) =
        n + Text.size held + Text.size (':' :: v) := by
    have hsize := congrArg Text.size (List.take_append_drop scheme held)
    simp only [Text.size_append, Text.size_reverse] at hsize ⊢
    omega
  have hrest : n + Text.size held + Text.size (':' :: (v ++ prose w)) =
      n + Text.size held + Text.size (':' :: v) + Text.size [] + Text.size (prose w) := by
    simp only [Text.size_append, Text.size_cons, Text.size_nil]
    omega
  rw [← Prose.url?_prose, hprose] at h
  rw [layoutProse, Markup.prose_char rfl, Markup.afterProse_char rfl, hprose, hafter,
    Prose.lexemes_url h, Token.place_append, Prose.flatMap_flush, Text.size_reverse,
    Token.place_cons, List.take_left, List.drop_left, hstop, hrest, layoutProse, List.append_assoc,
    List.cons_append]

theorem layoutProse_held (hspecial : isSpecial c = true) (hcolon : c ≠ ':') (hheld : held ≠ []) :
    layoutProse glued held n (c :: t) =
      .ofText .text held.reverse n.toUInt32 ::
        layoutProse (startsWith isWord held) [] (n + Text.size held) (c :: t) := by
  have hstop : startsWith (fun c => !isSpecial c || c == ':') (prose (c :: t)) = false :=
    Markup.startsWith_prose (by simp [Markup.startsWith_cons, hspecial, hcolon])
  rw [layoutProse, Prose.lexemes_held hstop hheld, Token.place_cons, Text.size_reverse]
  rfl

theorem layoutProse_opened {kind : Token.Kind} {v w : Text}
    (h : Prose.opened? c (v ++ w) = some (kind, v.length))
    (hprose : prose (v ++ w) = v ++ prose w) (hafter : afterProse (v ++ w) = afterProse w) :
    layoutProse glued [] n (c :: (v ++ w)) =
      .ofText kind (c :: v) n.toUInt32 ::
        layoutProse (Prose.endsInWord (c :: v)) [] (n + Text.size (c :: v)) w := by
  obtain ⟨hspecial, hcolon, hnewline⟩ := Prose.of_isMarker (Prose.isMarker_of_opened? h)
  rw [← Prose.opened?_prose, hprose] at h
  rw [layoutProse, Markup.prose_char hnewline, Markup.afterProse_char hnewline, hprose, hafter,
    Prose.lexemes_opened hspecial hcolon h, Token.place_cons, List.take_left, List.drop_left,
    layoutProse]
  simp only [Text.size_append, Text.size_cons, Text.size_nil, Nat.add_zero, Nat.add_assoc]
  rfl

theorem layoutProse_unopened (hmarker : Scanner.isMarker c = true) (h : Prose.opened? c t = none) :
    layoutProse glued [] n (c :: t) = layoutProse glued [c] n t := by
  obtain ⟨hspecial, hcolon, hnewline⟩ := Prose.of_isMarker hmarker
  rw [← Prose.opened?_prose] at h
  have hlength : breakLength (c :: prose t) = 1 := by
    refine Markup.breakLength_eq_one ?_
    rintro u rfl -
    cases hnewline
  refine layoutProse_read n (m := [c]) (Markup.prose_char hnewline t)
    (Markup.afterProse_char hnewline t) ?_
  rw [List.singleton_append, Prose.lexemes_unopened hspecial hcolon h, hlength]
  rfl

/-- A line break in front of a line of the paragraph. -/
theorem layoutProse_break (h : startsWith isNewline t = true)
    (hblank : startsWith isBlank (t.drop (breakLength t)) = false) :
    layoutProse glued [] n t =
      layoutProse glued (t.take (breakLength t)).reverse n (t.drop (breakLength t)) := by
  obtain ⟨hprose, hafter⟩ := Markup.prose_break h hblank
  obtain ⟨hstart, hlength, hdrop⟩ :=
    Markup.breakLength_append h (Markup.startsWith_prose hblank)
  have hsplit := List.take_append_drop (breakLength t) t
  have hlexemes : lexemes glued [] (t.take (breakLength t) ++ prose (t.drop (breakLength t))) =
      lexemes glued ((t.take (breakLength t)).reverse ++ []) (prose (t.drop (breakLength t))) := by
    obtain ⟨c, u, hcu, hc⟩ := Markup.exists_of_startsWith hstart
    obtain ⟨hcolon, hmarker⟩ := Prose.of_isNewline hc
    have htake := List.take_append_drop (breakLength t) (c :: u)
    rw [hcu] at hlength hdrop
    rw [hdrop, ← hcu, List.append_cancel_right_eq, hcu] at htake
    rw [hcu, Prose.lexemes_unopened (Scanner.isSpecial_of_isNewline hc) hcolon
      (Prose.opened?_of_isMarker_eq_false hmarker u), hlength, hdrop, htake, List.append_nil]
  have hread := layoutProse_read n (by rw [hsplit, hprose]) (by rw [hsplit, hafter]) hlexemes
  rwa [hsplit, List.append_nil] at hread

/-- A line break in front of a line that ends the paragraph. -/
theorem layoutProse_end (h : startsWith isNewline t = true)
    (hblank : startsWith isBlank (t.drop (breakLength t)) = true) :
    layoutProse glued [] n t = layout n t := by
  obtain ⟨hprose, hafter⟩ := Markup.prose_end h hblank
  rw [layoutProse, hprose, hafter, Prose.lexemes_nil]
  rfl

end Block

end DocComment
