import DocComment.Proofs.InlineMarkup
import DocComment.Proofs.LineFeeds
import Mathlib.Data.List.Forall2

/-!
# Tokens do not tell line breaks apart

A text and the text with line feeds for its line breaks have the same tokens, up to line feeds in
them (`Token.scan_toFeeds`). Both are read side by side, block by block and step by step inside a
paragraph: the tokens to come are alike (`Block.AlikeProse`, `Block.AlikeBehind`) if those behind the
next line break, marker, URL and so on are.

What has become tokens, the stretch held and what lies ahead meet where no line break lies across
(`Block.Stands`). This keeps the two texts in step, and it says that tokens do not end inside a line
break.
-/

namespace DocComment

namespace Prose
open Markup (startsWith toFeeds Divides Shrinks)

/-- The stretch held, last character first, with line feeds for line breaks. -/
def heldFeeds (held : Text) : Text := (toFeeds held.reverse).reverse

variable {glued : Bool} {held t : Text}

@[simp] theorem heldFeeds_nil : heldFeeds [] = [] := rfl

@[simp] theorem reverse_heldFeeds (held : Text) : (heldFeeds held).reverse = toFeeds held.reverse :=
  List.reverse_reverse _

theorem heldFeeds_reverse (v : Text) : heldFeeds v.reverse = (toFeeds v).reverse := by
  rw [heldFeeds, List.reverse_reverse]

theorem heldFeeds_eq_nil_iff : heldFeeds held = [] ↔ held = [] := by
  rw [heldFeeds, List.reverse_eq_nil_iff, Markup.toFeeds_eq_nil_iff, List.reverse_eq_nil_iff]

theorem heldFeeds_append {w : Text} (h : ∀ c ∈ w, isNewline c = false) (held : Text) :
    heldFeeds (w ++ held) = w ++ heldFeeds held := by
  have hw : ∀ c ∈ w.reverse, isNewline c = false := fun c hc => h c (List.mem_reverse.1 hc)
  have hdivides : Divides held.reverse w.reverse :=
    .of_head _ (Markup.startsWith_eq_false_of_forall hw)
  rw [heldFeeds, List.reverse_append, Markup.toFeeds_append hdivides, Markup.toFeeds_eq_self hw,
    List.reverse_append, List.reverse_reverse, heldFeeds]

theorem startsWith_isWord_heldFeeds (held : Text) :
    startsWith isWord (heldFeeds held) = startsWith isWord held := by
  rw [heldFeeds, Markup.startsWith_reverse_toFeeds rfl, List.reverse_reverse]

theorem endsInWord_toFeeds (t : Text) : endsInWord (toFeeds t) = endsInWord t :=
  Markup.startsWith_reverse_toFeeds rfl t

theorem isNewline_of_isWord {c : Char} (h : isWord c = true) : isNewline c = false := by
  rw [← Bool.not_eq_true]
  intro hnewline
  rcases Url.eq_of_isNewline hnewline with rfl | rfl <;> cases h

/-- URLs are seen at the same colons, and are as long. -/
theorem url?_toFeeds (glued : Bool) (held t : Text) :
    url? glued (heldFeeds held) (':' :: toFeeds t) = url? glued held (':' :: t) := by
  have hline : ∀ c ∈ held.takeWhile isWord, isNewline c = false := fun c hc =>
    isNewline_of_isWord (List.mem_takeWhile_imp hc)
  have hstop : ∀ c ∈ (heldFeeds (held.dropWhile isWord)).head?, isWord c = false := by
    intro c hc
    have := Markup.startsWith_dropWhile isWord held
    rw [← startsWith_isWord_heldFeeds, startsWith, hc] at this
    exact this
  have hword : ∀ c ∈ held.takeWhile isWord, isWord c = true := fun c => List.mem_takeWhile_imp
  have hsplit := heldFeeds_append hline (held.dropWhile isWord)
  obtain ⟨htake, hdrop⟩ := Node.takeWhile_run hword hstop
  rw [List.takeWhile_append_dropWhile] at hsplit
  rw [← hsplit] at htake hdrop
  have hall : (heldFeeds held).all isWord = held.all isWord := by
    rw [Bool.eq_iff_iff, List.all_eq_true, List.all_eq_true, ← List.dropWhile_eq_nil_iff, hdrop,
      heldFeeds_eq_nil_iff, List.dropWhile_eq_nil_iff]
  have hlength : Url.length? ((held.takeWhile isWord).reverse ++ ':' :: toFeeds t) =
      Url.length? ((held.takeWhile isWord).reverse ++ ':' :: t) := by
    rw [← Markup.toFeeds_char rfl, ← Markup.toFeeds_append_left, Url.length?_toFeeds]
    exact fun c hc => hline c (List.mem_reverse.1 hc)
  simp only [url?, htake, hall, hlength]

theorem exists_scheme_of_url? {scheme n : Nat} (h : url? glued held (':' :: t) = some (scheme, n)) :
    ∃ s rest : Text, held = s.reverse ++ rest ∧ scheme = s.length ∧
      ∀ c ∈ s, isNewline c = false := by
  obtain ⟨hle, hscheme, -⟩ := scheme_of_url? h
  refine ⟨(held.take scheme).reverse, held.drop scheme, ?_, ?_, fun c hc => ?_⟩
  · rw [List.reverse_reverse, List.take_append_drop]
  · rw [List.length_reverse, List.length_take_of_le hle]
  · exact isNewline_of_isWord (Url.isWord_of_mem_schemes hscheme c hc)

/-- A marker opens the same token in both texts, or none. -/
theorem rel_opened? (c : Char) (t : Text) :
    Option.Rel (fun a b => a.1 = b.1 ∧ Shrinks t a.2 b.2) (opened? c t)
      (opened? c (toFeeds t)) := by
  unfold opened?
  split
  · exact Markup.rel_map (Markup.rel_codeLength? t) fun _ _ h => ⟨rfl, h⟩
  · split
    · rw [Markup.startsWith_toFeeds rfl]
      split
      · next hstar =>
        obtain ⟨d, u, rfl, hd⟩ := Markup.exists_of_startsWith hstar
        rw [beq_iff_eq.1 hd]
        exact .some ⟨rfl, .char rfl (.zero u)⟩
      · exact .some ⟨rfl, .zero t⟩
    · split
      · next hc =>
        rw [hc, ← Markup.toFeeds_char rfl, Url.linkLength?_toFeeds]
        cases hlink : Url.linkLength? ('[' :: t) with
        | none => exact .none
        | some n =>
          obtain ⟨v, w, rfl, rfl, hv⟩ := Url.exists_of_linkLength?_cons hlink
          exact .some ⟨rfl, .append hv w⟩
      · exact .none

theorem opened?_toFeeds_eq_none {c : Char} (h : opened? c t = none) :
    opened? c (toFeeds t) = none := by
  have hrel := rel_opened? c t
  rw [h] at hrel
  generalize opened? c (toFeeds t) = o at hrel
  cases hrel
  rfl

theorem opened?_toFeeds_eq_some {c : Char} {kind : Token.Kind} {v w : Text}
    (h : opened? c (v ++ w) = some (kind, v.length)) :
    Divides v w ∧ opened? c (toFeeds v ++ toFeeds w) = some (kind, (toFeeds v).length) := by
  have hrel := rel_opened? c (v ++ w)
  rw [h] at hrel
  generalize hfeeds : opened? c (toFeeds (v ++ w)) = o at hrel
  cases hrel with
  | @some _ b hrel =>
    obtain ⟨rfl, hshrinks⟩ : kind = b.1 ∧ Shrinks (v ++ w) v.length b.2 := hrel
    have hdivides := hshrinks.divides
    have hlength := hshrinks.length_toFeeds
    rw [List.take_left] at hlength hdivides
    rw [List.drop_left] at hdivides
    rw [← Markup.toFeeds_append hdivides, hfeeds, hlength]
    exact ⟨hdivides, rfl⟩

theorem prose_of_opened? {c : Char} {kind : Token.Kind} {v w : Text}
    (h : opened? c (v ++ w) = some (kind, v.length)) :
    Markup.prose (v ++ w) = v ++ Markup.prose w ∧
      Markup.afterProse (v ++ w) = Markup.afterProse w := by
  obtain ⟨v', w', hsplit, hlength, hprose⟩ := exists_of_opened? h
  obtain ⟨rfl, rfl⟩ := List.append_inj hsplit hlength
  exact hprose

end Prose

/-! ### Tokens in both texts -/

namespace Token
open Markup (toFeeds Divides)

/-- A token that stands in `text`, with no line break across its ends. -/
def DividedIn (text : Text) (t : Token) : Prop :=
  ∃ before after, text = before ++ (t.value ++ after) ∧
    t.span = .ofText (Text.size before).toUInt32 t.value ∧
    Divides before (t.value ++ after) ∧ Divides (before ++ t.value) after

/-- A token of `text` becomes `u` with line feeds. -/
def Alike (text : Text) (t u : Token) : Prop :=
  t.DividedIn text ∧ (t.kind, toFeeds t.value) = (u.kind, u.value)

end Token

namespace Block
open List (Forall₂)
open Markup (startsWith breakLength indentedLength afterProse toFeeds Divides)
open Prose (heldFeeds endsInWord)
open Scanner (isSpecial isMarker)

/-- A text is divided into what has become tokens, the stretch held and what lies ahead, and no line
break lies across. -/
structure Stands (text before held t : Text) : Prop where
  text_eq : text = before ++ (held.reverse ++ t)
  front : Divides before (held.reverse ++ t)
  back : Divides held.reverse t

variable {text before held t : Text} {glued : Bool} {c : Char}

namespace Stands

theorem read {m : Text} (h : Stands text before held (m ++ t)) (hm : Divides m t) :
    Stands text before (m.reverse ++ held) t := by
  have hsplit : (m.reverse ++ held).reverse = held.reverse ++ m := by
    rw [List.reverse_append, List.reverse_reverse]
  refine ⟨?_, ?_, ?_⟩
  · rw [h.text_eq, hsplit, List.append_assoc]
  · rw [hsplit, List.append_assoc]
    exact h.front
  · rw [hsplit]
    exact .append_left h.back hm

/-- A part of the stretch held goes back. -/
theorem unread {s : Text} (h : Stands text before (s.reverse ++ held) t)
    (hs : Divides held.reverse (s ++ t)) : Stands text before held (s ++ t) := by
  have hsplit : (s.reverse ++ held).reverse ++ t = held.reverse ++ (s ++ t) := by simp
  refine ⟨?_, ?_, hs⟩
  · rw [h.text_eq, hsplit]
  · rw [← hsplit]
    exact h.front

theorem unread_all (h : Stands text before held t) : Stands text before [] (held.reverse ++ t) :=
  ⟨h.text_eq, h.front, .nil_left _⟩

section
variable {v : Text}

theorem alike (h : Stands text before [] (v ++ t)) (hv : Divides v t) (kind : Token.Kind)
    (n : Nat) :
    Token.Alike text (.ofText kind v (Text.size before).toUInt32)
      (.ofText kind (toFeeds v) n.toUInt32) :=
  ⟨⟨before, t, h.text_eq, rfl, h.front, .append_left h.front hv⟩, rfl⟩

theorem skip (h : Stands text before [] (v ++ t)) (hv : Divides v t) :
    Stands text (before ++ v) [] t := by
  refine ⟨?_, .append_left h.front hv, .nil_left t⟩
  rw [h.text_eq, List.append_assoc]
  rfl

end

/-- The stretch held becomes plain text, if it is not empty. -/
theorem flush {ls ms : List Token} (h : Stands text before held t)
    (n : Nat) (hrest : Forall₂ (Token.Alike text) ls ms) :
    Forall₂ (Token.Alike text) (Token.place (Text.size before) (Prose.flush held) ++ ls)
      (Token.place n (Prose.flush (heldFeeds held)) ++ ms) := by
  by_cases hheld : held = []
  · rw [hheld]
    exact hrest
  · have hfeeds : heldFeeds held ≠ [] := by rwa [ne_eq, Prose.heldFeeds_eq_nil_iff]
    rw [Prose.flush_of_ne_nil hheld, Prose.flush_of_ne_nil hfeeds, Prose.reverse_heldFeeds]
    exact .cons (h.unread_all.alike h.back .text n) hrest

end Stands

/-- The tokens from within a paragraph on are alike. -/
def AlikeProse (text before : Text) (glued : Bool) (held t : Text) : Prop :=
  Stands text before held t → ∀ n,
    Forall₂ (Token.Alike text) (layoutProse glued held (Text.size before) t)
      (layoutProse glued (heldFeeds held) n (toFeeds t))

/-- The tokens of a part of a text are alike. -/
def AlikeBehind (text before t : Text) : Prop :=
  Stands text before [] t → ∀ n,
    Forall₂ (Token.Alike text) (layout (Text.size before) t) (layout n (toFeeds t))

/-! ### Inside a paragraph -/

theorem alikeProse_nil : AlikeProse text before glued held [] := by
  intro h n
  have hfinish := (h.unread_all.skip h.back).alike (v := []) (.nil_left [])
  rw [Text.size_append, Text.size_reverse] at hfinish
  rw [Markup.toFeeds_nil, layoutProse_nil, layoutProse_nil]
  exact h.flush n (.cons (hfinish .finish _) .nil)

theorem alikeProse_char (hc : isNewline c = false)
    (hread : ∀ n, layoutProse glued held n (c :: t) = layoutProse glued (c :: held) n t)
    (hfeeds : ∀ n, layoutProse glued (heldFeeds held) n (c :: toFeeds t) =
      layoutProse glued (c :: heldFeeds held) n (toFeeds t))
    (ih : AlikeProse text before glued (c :: held) t) :
    AlikeProse text before glued held (c :: t) := by
  intro h n
  have hheld : heldFeeds (c :: held) = c :: heldFeeds held :=
    Prose.heldFeeds_append (w := [c]) (by simpa using hc) held
  rw [Markup.toFeeds_char hc, hread, hfeeds, ← hheld]
  exact ih (h.read (m := [c]) (.of_last (x := [c]) hc t)) n

theorem alikeProse_plain (hc : isSpecial c = false)
    (ih : AlikeProse text before glued (c :: held) t) :
    AlikeProse text before glued held (c :: t) := by
  have hplain : ∀ d ∈ [c], isSpecial d = false := by simpa using hc
  exact alikeProse_char (Scanner.isNewline_of_isSpecial_eq_false hc)
    (fun n => layoutProse_plain n hplain t) (fun n => layoutProse_plain n hplain (toFeeds t)) ih

theorem alikeProse_colon (hurl : Prose.url? glued held (':' :: t) = none)
    (ih : AlikeProse text before glued (':' :: held) t) :
    AlikeProse text before glued held (':' :: t) := by
  have hfeeds := Prose.url?_toFeeds glued held t
  rw [hurl] at hfeeds
  exact alikeProse_char rfl (fun n => layoutProse_colon n hurl)
    (fun n => layoutProse_colon n hfeeds) ih

theorem alikeProse_held (hspecial : isSpecial c = true) (hcolon : c ≠ ':') (hheld : held ≠ [])
    (ih : AlikeProse text (before ++ held.reverse) (startsWith isWord held) [] (c :: t)) :
    AlikeProse text before glued held (c :: t) := by
  intro h n
  have hall := h.unread_all
  have hrest := ih (hall.skip h.back)
  have hfeeds : heldFeeds held ≠ [] := by rwa [ne_eq, Prose.heldFeeds_eq_nil_iff]
  have hstop : startsWith (fun d => isSpecial d && d != ':') (toFeeds (c :: t)) = true := by
    rw [Markup.startsWith_toFeeds rfl]
    simp [startsWith, hspecial, hcolon]
  obtain ⟨d, u, hdu, hd⟩ := Markup.exists_of_startsWith hstop
  obtain ⟨hdspecial, hdcolon⟩ : isSpecial d = true ∧ d ≠ ':' := by simpa using hd
  rw [Text.size_append, Text.size_reverse, hdu] at hrest
  rw [hdu, layoutProse_held _ hspecial hcolon hheld, layoutProse_held _ hdspecial hdcolon hfeeds,
    Prose.startsWith_isWord_heldFeeds, Prose.reverse_heldFeeds]
  exact .cons (hall.alike h.back .text n) (hrest _)

theorem alikeProse_opened {kind : Token.Kind} {v w : Text}
    (hopened : Prose.opened? c (v ++ w) = some (kind, v.length))
    (ih : AlikeProse text (before ++ c :: v) (endsInWord (c :: v)) [] w) :
    AlikeProse text before glued [] (c :: (v ++ w)) := by
  intro h n
  have hc := (Prose.of_isMarker (Prose.isMarker_of_opened? hopened)).2.2
  obtain ⟨hdivides, hfeeds⟩ := Prose.opened?_toFeeds_eq_some hopened
  obtain ⟨hprose, hafter⟩ := Prose.prose_of_opened? hopened
  obtain ⟨hproseFeeds, hafterFeeds⟩ := Prose.prose_of_opened? hfeeds
  have hcv : Divides (c :: v) w := .append_left (x := [c]) (.of_last (x := [c]) hc _) hdivides
  have hcv' : toFeeds (c :: v) = c :: toFeeds v := Markup.toFeeds_char hc v
  have hword : endsInWord (c :: toFeeds v) = endsInWord (c :: v) := by
    rw [← hcv', Prose.endsInWord_toFeeds]
  replace h : Stands text before [] (c :: v ++ w) := h
  have hrest := ih (h.skip hcv)
  rw [Text.size_append] at hrest
  rw [Markup.toFeeds_char hc, Markup.toFeeds_append hdivides, Prose.heldFeeds_nil,
    layoutProse_opened _ hopened hprose hafter, layoutProse_opened _ hfeeds hproseFeeds hafterFeeds,
    hword, ← hcv']
  exact .cons (h.alike hcv kind n) (hrest _)

theorem layoutProse_url_append (n : Nat) {s v w : Text} (hv : ∀ c ∈ v, isNewline c = false)
    (h : Prose.url? glued (s.reverse ++ held) (':' :: (v ++ w)) = some (s.length, v.length)) :
    layoutProse glued (s.reverse ++ held) n (':' :: (v ++ w)) =
      Token.place n (Prose.flush held) ++
        .ofText .url (s ++ ':' :: v) (n + Text.size held).toUInt32 ::
          layoutProse (endsInWord (':' :: v)) [] (n + Text.size held + Text.size (s ++ ':' :: v))
            w := by
  obtain ⟨hprose, hafter⟩ := Markup.prose_append hv w
  have hsize : n + Text.size (s.reverse ++ held) + Text.size (':' :: v) =
      n + Text.size held + Text.size (s ++ ':' :: v) := by
    simp only [Text.size_append, Text.size_reverse]
    omega
  rw [layoutProse_url n h hprose hafter, List.take_left' List.length_reverse,
    List.drop_left' List.length_reverse, List.reverse_reverse, hsize]

/-- A URL lies on one line, so it stays as it is. -/
theorem alikeProse_url {s v w : Text} (hs : ∀ c ∈ s, isNewline c = false)
    (hv : ∀ c ∈ v, isNewline c = false)
    (hurl : Prose.url? glued (s.reverse ++ held) (':' :: (v ++ w)) = some (s.length, v.length))
    (ih : AlikeProse text (before ++ held.reverse ++ (s ++ ':' :: v)) (endsInWord (':' :: v)) []
      w) :
    AlikeProse text before glued (s.reverse ++ held) (':' :: (v ++ w)) := by
  intro h n
  have hline : ∀ c ∈ s ++ ':' :: v, isNewline c = false :=
    List.forall_mem_append.2 ⟨hs, List.forall_mem_cons.2 ⟨rfl, hv⟩⟩
  have hsplit : s ++ ':' :: (v ++ w) = s ++ ':' :: v ++ w := by simp
  have hfeeds : heldFeeds (s.reverse ++ held) = s.reverse ++ heldFeeds held :=
    Prose.heldFeeds_append (fun c hc => hs c (List.mem_reverse.1 hc)) held
  have hurlFeeds := Prose.url?_toFeeds glued (s.reverse ++ held) (v ++ w)
  rw [hfeeds, Markup.toFeeds_append_left hv, hurl] at hurlFeeds
  have hdivides : Divides held.reverse (s ++ ':' :: (v ++ w)) := by
    refine .of_head _ ?_
    rw [hsplit, Markup.startsWith_append _ (by simp)]
    exact Markup.startsWith_eq_false_of_forall hline
  have hheld := h.unread hdivides
  have hskip := hheld.unread_all.skip hdivides
  rw [hsplit] at hskip
  have htoken := hskip.alike (.of_forall hline w) .url
  have hrest := ih (hskip.skip (.of_forall hline w))
  rw [Text.size_append, Text.size_append, Text.size_reverse] at hrest
  rw [Text.size_append, Text.size_reverse, Markup.toFeeds_eq_self hline] at htoken
  rw [Markup.toFeeds_char rfl, Markup.toFeeds_append_left hv, hfeeds,
    layoutProse_url_append _ hv hurl, layoutProse_url_append _ hv hurlFeeds]
  exact hheld.flush n (.cons (htoken _) (hrest _))

theorem alikeProse_unopened (hmarker : isMarker c = true) (hopened : Prose.opened? c t = none)
    (ih : AlikeProse text before glued [c] t) : AlikeProse text before glued [] (c :: t) := by
  exact alikeProse_char (Prose.of_isMarker hmarker).2.2
    (fun n => layoutProse_unopened n hmarker hopened)
    (fun n => layoutProse_unopened n hmarker (Prose.opened?_toFeeds_eq_none hopened)) ih

theorem alikeProse_break (hbreak : startsWith isNewline t = true)
    (hblank : startsWith isBlank (t.drop (breakLength t)) = false)
    (ih : AlikeProse text before glued (t.take (breakLength t)).reverse (t.drop (breakLength t))) :
    AlikeProse text before glued [] t := by
  intro h n
  obtain ⟨hstart, hlength, hdrop⟩ := Markup.break_toFeeds hbreak
  have hfeeds : startsWith isBlank ((toFeeds t).drop (breakLength (toFeeds t))) = false := by
    rw [hlength, hdrop, Markup.startsWith_toFeeds rfl, hblank]
  have htake : (toFeeds t).take 1 = ['\n'] := by
    rw [Markup.toFeeds_break hbreak]
    rfl
  have hread : Stands text before ((t.take (breakLength t)).reverse ++ [])
      (t.drop (breakLength t)) :=
    Stands.read (by rwa [List.take_append_drop]) (Markup.divides_break hbreak)
  rw [List.append_nil] at hread
  rw [Prose.heldFeeds_nil, layoutProse_break _ hbreak hblank, layoutProse_break _ hstart hfeeds,
    hlength, hdrop, htake, ← Markup.toFeeds_take_breakLength hbreak, ← Prose.heldFeeds_reverse]
  exact ih hread n

/-- A line break in front of a line that ends the paragraph. -/
theorem alikeProse_end (hbreak : startsWith isNewline t = true)
    (hblank : startsWith isBlank (t.drop (breakLength t)) = true)
    (ih : AlikeBehind text before t) : AlikeProse text before glued [] t := by
  intro h n
  obtain ⟨hstart, hlength, hdrop⟩ := Markup.break_toFeeds hbreak
  have hfeeds : startsWith isBlank ((toFeeds t).drop (breakLength (toFeeds t))) = true := by
    rw [hlength, hdrop, Markup.startsWith_toFeeds rfl, hblank]
  rw [Prose.heldFeeds_nil, layoutProse_end _ hbreak hblank, layoutProse_end _ hstart hfeeds]
  exact ih h n

theorem alikeBehind_nil : AlikeBehind text before [] := by
  intro h n
  rw [Markup.toFeeds_nil, layout_nil, layout_nil]
  exact .cons (h.alike (v := []) (.nil_left []) .finish n) .nil

theorem alikeBehind_break (hbreak : startsWith isNewline t = true)
    (ih : AlikeBehind text (before ++ t.take (breakLength t)) (t.drop (breakLength t))) :
    AlikeBehind text before t := by
  intro h n
  rw [← List.take_append_drop (breakLength t) t] at h
  have hrest := ih (h.skip (Markup.divides_break hbreak))
  rw [Text.size_append] at hrest
  rw [layout_break _ hbreak, Markup.toFeeds_break hbreak, layout_newline _ rfl]
  exact hrest _

theorem alikeBehind_indented (hindent : startsWith isIndent t = true)
    (ih : AlikeBehind text (before ++ t.take (indentedLength t)) (t.drop (indentedLength t))) :
    AlikeBehind text before t := by
  intro h n
  have hshrinks := Markup.shrinks_indentedLength t
  obtain ⟨htake, hdrop⟩ := hshrinks.toFeeds_split
  have hfeeds : startsWith isIndent (toFeeds t) = true := by
    rw [Markup.startsWith_toFeeds rfl, hindent]
  rw [← List.take_append_drop (indentedLength t) t] at h
  have hrest := ih (h.skip hshrinks.divides)
  rw [Text.size_append] at hrest
  rw [layout_indented _ hindent, layout_indented _ hfeeds, htake, hdrop]
  exact .cons (h.alike hshrinks.divides .indented n) (hrest _)

theorem alikeBehind_paragraph (hprose : startsWith (!isBlank ·) t = true)
    (ih : AlikeProse text before false [] t) : AlikeBehind text before t := by
  intro h n
  have hfeeds : startsWith (!isBlank ·) (toFeeds t) = true := by
    rw [Markup.startsWith_toFeeds rfl, hprose]
  rw [layout_paragraph _ hprose, layout_paragraph _ hfeeds]
  exact .cons (h.alike (v := []) (.nil_left t) .paragraph n) (ih h n)

section
variable (hread : ∀ before glued held u, u.length ≤ t.length →
  afterProse u = afterProse (c :: t) → AlikeProse text before glued held u)
include hread

/-- At a colon a URL may end the stretch held. -/
theorem alikeProse_of_colon (hc : c = ':') : AlikeProse text before glued held (c :: t) := by
  subst hc
  have hchar := Markup.afterProse_char (c := ':') rfl t
  cases hurl : Prose.url? glued held (':' :: t) with
  | none => exact alikeProse_colon hurl (hread _ _ _ t (Nat.le_refl _) hchar.symm)
  | some l =>
    obtain ⟨scheme, k⟩ := l
    obtain ⟨s, held, rfl, rfl, hs⟩ := Prose.exists_scheme_of_url? hurl
    obtain ⟨v, w, rfl, rfl, hv⟩ := Prose.line_of_url? hurl
    refine alikeProse_url hs hv hurl (hread _ _ _ w (by simp) ?_)
    rw [hchar, (Markup.prose_append hv w).2]

/-- With nothing held, a marker may open a token, and a line break may end the paragraph. -/
theorem alikeProse_of_isSpecial (hspecial : isSpecial c = true) (hcolon : c ≠ ':')
    (hafter : ∀ before, AlikeBehind text before (afterProse (c :: t))) :
    AlikeProse text before glued [] (c :: t) := by
  cases hmarker : isMarker c with
  | true =>
    have hchar := Markup.afterProse_char (Prose.of_isMarker hmarker).2.2 t
    cases hopened : Prose.opened? c t with
    | none => exact alikeProse_unopened hmarker hopened (hread _ _ _ t (Nat.le_refl _) hchar.symm)
    | some l =>
      obtain ⟨kind, k⟩ := l
      obtain ⟨v, w, rfl, rfl, -, hw⟩ := Prose.exists_of_opened? hopened
      exact alikeProse_opened hopened (hread _ _ _ w (by simp) (hchar.trans hw).symm)
  | false =>
    have hbreak : startsWith isNewline (c :: t) = true := by
      simpa [isSpecial, Scanner.isBreak, hmarker, hcolon, startsWith] using hspecial
    cases hblank : startsWith isBlank ((c :: t).drop (breakLength (c :: t))) with
    | true =>
      rw [(Markup.prose_end hbreak hblank).2] at hafter
      exact alikeProse_end hbreak hblank (hafter before)
    | false =>
      refine alikeProse_break hbreak hblank (hread _ _ _ _ ?_ ?_)
      · have hpos := Scanner.breakLength_pos (c :: t)
        rw [List.length_drop, List.length_cons]
        omega
      · exact (Markup.prose_break hbreak hblank).2.symm

end

/-- A paragraph is alike if what stands behind it is. -/
theorem alikeProse (before : Text) (glued : Bool) (held t : Text)
    (hafter : ∀ before, AlikeBehind text before (afterProse t)) :
    AlikeProse text before glued held t := by
  induction hwork : Prose.work held t using Nat.strong_induction_on
    generalizing before glued held t with
  | _ work ih =>
    subst hwork
    cases t with
    | nil => exact alikeProse_nil
    | cons c t =>
      have hread : ∀ before glued held u, u.length ≤ t.length →
          afterProse u = afterProse (c :: t) → AlikeProse text before glued held u := by
        intro before glued held u hu heq
        rw [← heq] at hafter
        exact ih _ (Prose.work_lt (Nat.lt_succ_of_le hu)) before glued held u hafter rfl
      cases hspecial : isSpecial c with
      | false =>
        have hnewline := Scanner.isNewline_of_isSpecial_eq_false hspecial
        exact alikeProse_plain hspecial
          (hread _ _ _ t (Nat.le_refl _) (Markup.afterProse_char hnewline t).symm)
      | true =>
        by_cases hcolon : c = ':'
        · exact alikeProse_of_colon hread hcolon
        · by_cases hheld : held = []
          · rw [hheld]
            exact alikeProse_of_isSpecial hread hspecial hcolon hafter
          · -- the stretch becomes a token, and nothing is read
            have hlt : Prose.work [] (c :: t) < Prose.work held (c :: t) := by
              simp [Prose.work, hheld]
            exact alikeProse_held hspecial hcolon hheld (ih _ hlt _ _ _ _ hafter rfl)

theorem alikeBehind (text before t : Text) : AlikeBehind text before t := by
  induction t using block_induction generalizing before with
  | nil => exact alikeBehind_nil
  | brk t h ih => exact alikeBehind_break h (ih _)
  | indented t h ih => exact alikeBehind_indented h (ih _)
  | paragraph t h ih => exact alikeBehind_paragraph h (alikeProse before false [] t ih)

end Block

/-- Tokens do not tell line breaks apart: with line feeds for its line breaks, a text has the same
tokens with line feeds in them. No line break lies across an end of a token. -/
theorem Token.scan_toFeeds (text : Text) :
    (scan text).map (fun t => (t.kind, Markup.toFeeds t.value)) =
        (scan (Markup.toFeeds text)).map (fun t => (t.kind, t.value)) ∧
      ∀ t ∈ scan text, ∃ before after, text = before ++ (t.value ++ after) ∧
        t.span = .ofText (Text.size before).toUInt32 t.value ∧
        Markup.Divides before (t.value ++ after) ∧ Markup.Divides (before ++ t.value) after := by
  have halike : List.Forall₂ (Alike text) (scan text) (scan (Markup.toFeeds text)) := by
    rw [scan_eq_layout, scan_eq_layout]
    exact Block.alikeBehind text [] text ⟨rfl, .nil_left _, .nil_left _⟩ 0
  obtain ⟨hdivided, hvalues⟩ := (List.forall₂_and_left _ _).1 halike
  refine ⟨?_, hdivided⟩
  rw [← List.forall₂_eq_eq_eq, List.forall₂_map_left_iff, List.forall₂_map_right_iff]
  exact hvalues

/-- A line break of two characters in a code span, and two of one character behind it. -/
theorem Token.scan_toFeeds_code :
    Token.ofText .code "`b\r\nc`".toList 2 ∈ scan "a `b\r\nc`\r\r d".toList ∧
      (scan "a `b\r\nc`\r\r d".toList).map (fun t => (t.kind, Markup.toFeeds t.value)) =
        (scan "a `b\nc`\n\n d".toList).map (fun t => (t.kind, t.value)) ∧
      (Token.ofText .code "`b\r\nc`".toList 2).DividedIn "a `b\r\nc`\r\r d".toList := by
  have hmem : Token.ofText .code "`b\r\nc`".toList 2 ∈ scan "a `b\r\nc`\r\r d".toList := by
    decide +kernel
  obtain ⟨hvalues, hdivided⟩ := scan_toFeeds "a `b\r\nc`\r\r d".toList
  exact ⟨hmem, hvalues, hdivided _ hmem⟩

end DocComment
