import DocComment.Proofs.BlockStructure
import DocComment.Proofs.CodeSpans
import DocComment.Proofs.LongestMatch
import DocComment.Proofs.TrimmedLines

/-!
# Inline tokens are all the markup there is

A token is maximal (`Token.Maximal`) if it is as long as its kind allows and, for plain text, if no
markup is left in it: markers and line breaks stand at its beginning only, and there only if nothing
begins with them; and no URL begins at a place in it where a word may begin. This is about the whole
text, so what stands before and behind a token comes in.

While a stretch is held, URLs are ruled out up to the last colon that has been read (`Prose.Held`).
Behind that colon the stretch can end with a part of a scheme only if the scheme's own colon comes
next, so the stretch is plain text when it becomes a token (`Prose.Held.plainText`). Hence the
lexemes of a paragraph are maximal (`Prose.allMaximal_lexemes`), and so are the tokens of a text.
-/

namespace DocComment

namespace Token
open Markup (startsWith breakLength IsCodeSpan)

/-- What plain text may begin with, and what it does not have behind that. -/
structure PlainStart (v after : Text) : Prop where
  star : '*' ∉ v
  /-- Behind the first character, or the first line break, there is no marker and no line break. -/
  inner : ∀ c ∈ v.drop (breakLength v), c ≠ '`' ∧ c ≠ '[' ∧ isNewline c = false
  code : startsWith (· == '`') v = true → ∀ u, u <+: v ++ after → ¬ IsCodeSpan u
  link : startsWith (· == '[') v = true → ∀ u, u <+: v ++ after → ¬ Url.IsLink u
  /-- A line break does not stand in front of an empty or an indented line. -/
  brk : startsWith isNewline v = true →
    startsWith isBlank ((v ++ after).drop (breakLength (v ++ after))) = false

/-- Plain text between `before` and `after`. -/
structure PlainText (before v after : Text) : Prop extends PlainStart v after where
  /-- No URL begins in it, unless in the middle of a word. -/
  url : ∀ x y, v = x ++ y → y ≠ [] → Prose.endsInWord (before ++ x) = false →
    ∀ u, u <+: y ++ after → ¬ Url.IsUrl u

/-- The text `v` of a token, between `before` and `after`, is all that its kind allows. -/
def Maximal (before : Text) : Kind → Text → Text → Prop
  | .text, v, after => PlainText before v after
  | .star, v, after => v = ['*'] ∧ startsWith (· == '*') after = false
  | .doubleStar, v, _ => v = ['*', '*']
  | .code, v, _ => IsCodeSpan v
  | .url, v, after => Url.IsUrl v ∧ ∀ u, u <+: v ++ after → Url.IsUrl u → u.length ≤ v.length
  | .link, v, after => Url.IsLink v ∧ ∀ u, u <+: v ++ after → Url.IsLink u → u.length ≤ v.length
  | .paragraph, _, _ | .indented, _, _ | .finish, _, _ => True

/-- A token that stands somewhere in `text` and is maximal there. -/
def MaximalIn (text : Text) (t : Token) : Prop :=
  ∃ before after, text = before ++ (t.value ++ after) ∧
    t.span = .ofText (Text.size before).toUInt32 t.value ∧ Maximal before t.kind t.value after

end Token

/-! ### Schemes and words -/

namespace Url

theorem isWord_of_mem_schemes {s : Text} (h : s ∈ schemes) : ∀ c ∈ s, isWord c = true := by
  have hall : schemes.all (·.all isWord) = true := by decide
  exact List.all_eq_true.1 (List.all_eq_true.1 hall s h)

theorem IsUrl.exists_scheme {u : Text} (h : IsUrl u) : ∃ s w, s ∈ schemes ∧ u = s ++ ':' :: w := by
  obtain ⟨s, hs, host, slash, path, rfl, -⟩ := h
  exact ⟨s, '/' :: '/' :: (host ++ slash ++ path), hs, by simp⟩

end Url

namespace Prose
open Markup (startsWith breakLength prose)
open Scanner (isSpecial isMarker)
open Token (PlainStart PlainText Maximal)

theorem endsInWord_append (t : Text) {u : Text} (h : u ≠ []) :
    endsInWord (t ++ u) = endsInWord u := by
  rw [endsInWord, List.reverse_append, Markup.startsWith_append _ (by simpa using h), endsInWord]

theorem endsInWord_of_forall {t : Text} (hne : t ≠ []) (h : ∀ c ∈ t, isWord c = true) :
    endsInWord t = true := by
  rw [endsInWord]
  cases hrev : t.reverse with
  | nil => exact absurd (List.reverse_eq_nil_iff.1 hrev) hne
  | cons c u => exact h c (List.mem_reverse.1 (by rw [hrev]; exact List.mem_cons_self))

theorem isWord_of_isSpecial {c : Char} (h : isSpecial c = true) : isWord c = false := by
  simp only [isSpecial, isMarker, Scanner.isBreak, isNewline, Bool.or_eq_true, beq_iff_eq] at h
  rcases h with ((rfl | rfl) | rfl) | ((rfl | rfl) | rfl) <;> decide

/-- A URL that begins in `y`, in front of all colons, goes on behind `y` with its scheme or its
colon. -/
theorem startsWith_of_isUrl {y rest u : Text} (hy : y ≠ []) (hcolon : ':' ∉ y) (hu : Url.IsUrl u)
    (hpre : u <+: y ++ rest) : startsWith (fun c => isWord c || c == ':') rest = true := by
  obtain ⟨s, w, hs, rfl⟩ := hu.exists_scheme
  obtain ⟨tail, htail⟩ := hpre
  rw [List.append_assoc] at htail
  rcases List.append_eq_append_iff.1 htail with ⟨z, rfl, hz⟩ | ⟨z, rfl, rfl⟩
  · cases z with
    | nil =>
      rw [← show ':' :: w ++ tail = rest from hz]
      rfl
    | cons d z =>
      obtain ⟨rfl, -⟩ := List.cons.inj hz
      exact absurd (List.mem_append_right s List.mem_cons_self) hcolon
  · cases z with
    | nil => rfl
    | cons d z =>
      have hd := Url.isWord_of_mem_schemes hs d (List.mem_append_right y List.mem_cons_self)
      show (isWord d || d == ':') = true
      rw [hd, Bool.true_or]

/-! ### The stretch held -/

/-- What is known of a stretch while it is held: it begins like plain text, and no URL begins in it
whose colon has been read. -/
structure Held (before v rest : Text) : Prop extends PlainStart v rest where
  url : ∀ x y, v = x ++ y → ':' ∈ y → endsInWord (before ++ x) = false →
    ∀ u, u <+: y ++ rest → ¬ Url.IsUrl u

variable {before v rest : Text} {c : Char}

theorem Held.nil (before rest : Text) : Held before [] rest where
  star := List.not_mem_nil
  inner _ hc := by simp at hc
  code h := by cases h
  link h := by cases h
  brk h := by cases h
  url x y h hcolon := by
    obtain ⟨-, rfl⟩ := List.append_eq_nil_iff.1 h.symm
    cases hcolon

/-- In front of what cannot go on with a scheme, a stretch that is held is plain text. -/
theorem Held.plainText (h : Held before v rest)
    (hrest : startsWith (fun c => isWord c || c == ':') rest = false) :
    PlainText before v rest where
  toPlainStart := h.toPlainStart
  url x y hv hy hword u hpre hu := by
    by_cases hcolon : ':' ∈ y
    · exact h.url x y hv hcolon hword u hpre hu
    · rw [startsWith_of_isUrl hy hcolon hu hpre] at hrest
      cases hrest

theorem plainStart_append_char (h : PlainStart v (c :: rest)) (hmarker : isMarker c = false)
    (hnewline : isNewline c = false) : PlainStart (v ++ [c]) rest := by
  have hc : c ≠ '*' ∧ c ≠ '`' ∧ c ≠ '[' := by
    simpa [isMarker, and_assoc] using hmarker
  have hlf : startsWith (· == '\n') [c] = false := by
    cases hlf : c == '\n' with
    | false => exact hlf
    | true => rw [beq_iff_eq.1 hlf] at hnewline; cases hnewline
  have hsplit : v ++ [c] ++ rest = v ++ c :: rest := by simp
  by_cases hv : v = []
  · subst hv
    refine ⟨by simpa using hc.1.symm, fun d hd => ?_, fun hd => ?_, fun hd => ?_, fun hd => ?_⟩
    · rw [List.nil_append, Markup.breakLength_eq_one (by simp)] at hd
      cases hd
    · exact absurd (beq_iff_eq.1 hd) hc.2.1
    · exact absurd (beq_iff_eq.1 hd) hc.2.2
    · rw [show isNewline c = true from hd] at hnewline
      cases hnewline
  · have hstart : ∀ p, startsWith p (v ++ [c]) = startsWith p v := fun p =>
      Markup.startsWith_append p hv [c]
    refine ⟨?_, ?_, ?_, ?_, ?_⟩
    · simpa [hc.1.symm] using h.star
    · rw [Markup.drop_breakLength_append hv hlf]
      intro d hd
      rcases List.mem_append.1 hd with hd | hd
      · exact h.inner d hd
      · rw [List.mem_singleton.1 hd]
        exact ⟨hc.2.1, hc.2.2, hnewline⟩
    · rw [hstart, hsplit]
      exact h.code
    · rw [hstart, hsplit]
      exact h.link
    · rw [hstart, hsplit]
      exact h.brk

theorem plainStart_left {s : Text} (h : PlainStart (v ++ s) rest) (hv : v ≠ [])
    (hs : startsWith (· == '\n') s = false) : PlainStart v (s ++ rest) := by
  have hstart : ∀ p, startsWith p (v ++ s) = startsWith p v := fun p =>
    Markup.startsWith_append p hv s
  refine ⟨fun hmem => h.star (List.mem_append_left s hmem), fun d hd => h.inner d ?_, ?_, ?_, ?_⟩
  · rw [Markup.drop_breakLength_append hv hs]
    exact List.mem_append_left s hd
  · rw [← hstart, ← List.append_assoc]
    exact h.code
  · rw [← hstart, ← List.append_assoc]
    exact h.link
  · rw [← hstart, ← List.append_assoc]
    exact h.brk

theorem Held.append_char (h : Held before v (c :: rest)) (hmarker : isMarker c = false)
    (hnewline : isNewline c = false)
    (hurl : c = ':' → ∀ x y, v = x ++ y → ':' ∉ y → endsInWord (before ++ x) = false →
      ∀ u, u <+: y ++ c :: rest → ¬ Url.IsUrl u) : Held before (v ++ [c]) rest where
  toPlainStart := plainStart_append_char h.toPlainStart hmarker hnewline
  url x y heq hcolon hword u hpre hu := by
    rcases List.eq_nil_or_concat' y with rfl | ⟨z, d, rfl⟩
    · cases hcolon
    · rw [← List.append_assoc] at heq
      obtain ⟨hv, hcd⟩ := List.append_inj' heq rfl
      obtain rfl : c = d := (List.cons.inj hcd).1
      rw [List.append_assoc] at hpre
      by_cases hz : ':' ∈ z
      · exact h.url x z hv hz hword u hpre hu
      · have hc : c = ':' := by simpa [hz, eq_comm] using hcolon
        exact hurl hc x z hv hz hword u hpre hu

theorem Held.plain {held : Text} (h : Held before held.reverse (c :: rest))
    (hc : isSpecial c = false) : Held before (c :: held).reverse rest := by
  obtain ⟨hmarker, hbreak⟩ := Bool.or_eq_false_iff.1 hc
  obtain ⟨hnewline, hcolon⟩ := Bool.or_eq_false_iff.1 hbreak
  rw [List.reverse_cons]
  refine h.append_char hmarker hnewline fun hc => ?_
  rw [hc] at hcolon
  cases hcolon

/-! ### URLs -/

section
variable {glued : Bool} {held t : Text} {scheme n : Nat}

/-- At a colon without a URL, none begins at a word that ends there. -/
theorem not_isUrl_of_url? (hnone : url? (endsInWord before) held (':' :: t) = none) {x y : Text}
    (hheld : held.reverse = x ++ y) (hcolon : ':' ∉ y) (hword : endsInWord (before ++ x) = false) :
    ∀ u, u <+: y ++ ':' :: t → ¬ Url.IsUrl u := by
  rintro u ⟨tail, htail⟩ hu
  obtain ⟨s, w, hs, rfl⟩ := hu.exists_scheme
  rw [List.append_assoc] at htail
  obtain ⟨rfl, -⟩ := eq_of_append_cons_eq (Url.colon_not_mem_of_mem_schemes hs) hcolon htail
  replace hheld : held = s.reverse ++ x.reverse := by
    rw [← List.reverse_reverse held, hheld, List.reverse_append]
  have hx : ∀ c ∈ x.reverse.head?, isWord c = false := by
    intro c hc
    have hne : x ≠ [] := by
      rintro rfl
      cases hc
    rw [endsInWord_append before hne, endsInWord, startsWith, hc] at hword
    exact hword
  have hscheme : (held.takeWhile isWord).reverse = s := by
    have hrun : ∀ c ∈ s.reverse, isWord c = true := fun c hc =>
      Url.isWord_of_mem_schemes hs c (List.mem_reverse.1 hc)
    rw [hheld, (Node.takeWhile_run hrun hx).1, List.reverse_reverse]
  have hglued : (endsInWord before && held.all isWord) = false := by
    cases hrev : x.reverse with
    | nil =>
      obtain rfl := List.reverse_eq_nil_iff.1 hrev
      rw [List.append_nil] at hword
      rw [hword, Bool.false_and]
    | cons c z =>
      have hc := hx c (by rw [hrev]; rfl)
      simp [hheld, hrev, hc]
  have hlength : Url.length? (s ++ ':' :: t) = none := by
    simpa [url?, hscheme, hglued, hs] using hnone
  refine Url.length?_eq_none_iff.1 hlength (s ++ ':' :: w) ⟨tail, ?_⟩ hu
  rw [List.append_assoc, htail]

theorem Held.colon (h : Held before held.reverse (':' :: t))
    (hnone : url? (endsInWord before) held (':' :: t) = none) :
    Held before (':' :: held).reverse t := by
  rw [List.reverse_cons]
  exact h.append_char rfl rfl fun _ _ _ => not_isUrl_of_url? hnone

/-- The word in front of the colon of a URL is its scheme. -/
theorem scheme_of_url? (h : url? glued held (':' :: t) = some (scheme, n)) :
    scheme ≤ held.length ∧ (held.take scheme).reverse ∈ Url.schemes ∧
      startsWith isWord (held.drop scheme) = false ∧
      ∃ k, Url.length? ((held.take scheme).reverse ++ ':' :: t) = some k ∧
        n = k - (scheme + 1) := by
  have hsplit := List.takeWhile_append_dropWhile (p := isWord) (l := held)
  unfold url? at h
  extract_lets word at h
  split at h
  · cases h
  · split at h
    · next hscheme =>
      obtain ⟨k, hk, heq⟩ := Option.map_eq_some_iff.1 h
      obtain ⟨rfl, rfl⟩ := Prod.mk.inj heq
      have hlength : word.length = (held.takeWhile isWord).length := List.length_reverse
      have htake : held.take word.length = held.takeWhile isWord := by
        rw [hlength]
        exact (List.prefix_iff_eq_take.1 (List.takeWhile_prefix isWord)).symm
      have hdrop : held.drop word.length = held.dropWhile isWord := by
        have happend := List.take_append_drop word.length held
        rw [htake] at happend
        exact List.append_cancel_left (happend.trans hsplit.symm)
      refine ⟨?_, ?_⟩
      · rw [hlength]
        exact (List.takeWhile_prefix isWord).length_le
      rw [htake, hdrop]
      exact ⟨List.contains_iff_mem.1 hscheme, Markup.startsWith_dropWhile isWord held, k, hk, rfl⟩
    · cases h

theorem maximal_url (before : Text) (h : url? glued held (':' :: t) = some (scheme, n)) :
    Maximal before .url ((held.take scheme).reverse ++ ':' :: t.take n) (t.drop n) := by
  obtain ⟨hle, hscheme, -, k, hk, rfl⟩ := scheme_of_url? h
  have hlength : (held.take scheme).reverse.length = scheme := by
    rw [List.length_reverse, List.length_take_of_le hle]
  generalize (held.take scheme).reverse = s at hscheme hk hlength
  subst hlength
  obtain ⟨⟨u, ⟨tail, htail⟩, hu, rfl⟩, hmax⟩ := Url.length?_eq_some_iff.1 hk
  have hlt := hu.lt_length htail.symm (Url.colon_not_mem_of_mem_schemes hscheme)
  -- the URL is the scheme, the colon and what is taken behind it
  obtain ⟨w, rfl⟩ : s <+: u :=
    List.prefix_of_prefix_length_le (List.prefix_append s (':' :: t)) ⟨tail, htail⟩ hlt.le
  rw [List.append_assoc, List.append_cancel_left_eq] at htail
  cases w with
  | nil => simp at hlt
  | cons d w =>
    rw [List.cons_append] at htail
    obtain ⟨rfl, rfl⟩ := List.cons.inj htail
    have hn : (s ++ ':' :: w).length - (s.length + 1) = w.length := by
      simp only [List.length_append, List.length_cons]
      omega
    rw [hn, List.take_left, List.drop_left]
    refine ⟨hu, fun v hv => hmax v ?_⟩
    rwa [List.append_assoc] at hv

theorem Held.plainText_of_url? (h : Held before held.reverse (':' :: t))
    (hurl : url? glued held (':' :: t) = some (scheme, n)) (hne : held.drop scheme ≠ []) :
    PlainText before (held.drop scheme).reverse ((held.take scheme).reverse ++ ':' :: t) := by
  obtain ⟨-, hscheme, hword, -⟩ := scheme_of_url? hurl
  have hsplit : held.reverse = (held.drop scheme).reverse ++ (held.take scheme).reverse := by
    rw [← List.reverse_append, List.take_append_drop]
  replace hne : (held.drop scheme).reverse ≠ [] := by simpa using hne
  replace hword : endsInWord (held.drop scheme).reverse = false := by
    rwa [endsInWord, List.reverse_reverse]
  rw [hsplit] at h
  generalize (held.drop scheme).reverse = text at h hne hword
  generalize (held.take scheme).reverse = s at h hscheme
  have hs := Url.isWord_of_mem_schemes hscheme
  refine ⟨plainStart_left h.toPlainStart hne ?_, ?_⟩
  · cases s with
    | nil => rfl
    | cons d s =>
      cases hd : d == '\n' with
      | false => exact hd
      | true =>
        have := hs d List.mem_cons_self
        rw [beq_iff_eq.1 hd] at this
        cases this
  · rintro x y rfl hy hstart u hpre hu
    rw [← List.append_assoc] at hpre
    by_cases hcolon : ':' ∈ y
    · exact h.url x (y ++ s) (List.append_assoc x y s) (List.mem_append_left s hcolon) hstart u
        hpre hu
    · -- the scheme would reach back into the text, which does not end in a word
      obtain ⟨s', w, hs', rfl⟩ := hu.exists_scheme
      obtain ⟨tail, htail⟩ := hpre
      rw [List.append_assoc] at htail
      have hcolon' : ':' ∉ y ++ s := by
        simp [hcolon, Url.colon_not_mem_of_mem_schemes hscheme]
      obtain ⟨rfl, -⟩ := eq_of_append_cons_eq (Url.colon_not_mem_of_mem_schemes hs') hcolon' htail
      have hyword : ∀ c ∈ y, isWord c = true := fun c hc =>
        Url.isWord_of_mem_schemes hs' c (List.mem_append_left s hc)
      rw [endsInWord_append x hy, endsInWord_of_forall hy hyword] at hword
      cases hword

end

/-! ### Markers and line breaks -/

section
variable {t : Text} {kind : Token.Kind} {n : Nat}

theorem maximal_of_opened? (before : Text) (h : opened? c t = some (kind, n)) :
    Maximal before kind (c :: t.take n) (t.drop n) := by
  unfold opened? at h
  split at h
  · next hc =>
    obtain ⟨k, hk, heq⟩ := Option.map_eq_some_iff.1 h
    obtain ⟨rfl, rfl⟩ := Prod.mk.inj heq
    rw [hc]
    exact Markup.isCodeSpan_of_codeLength? hk
  · split at h
    · next hc =>
      split at h
      · next hstar =>
        obtain ⟨rfl, rfl⟩ := Prod.mk.inj (Option.some.inj h)
        obtain ⟨d, u, rfl, hd⟩ := Markup.exists_of_startsWith hstar
        rw [hc, beq_iff_eq.1 hd]
        rfl
      · next hstar =>
        obtain ⟨rfl, rfl⟩ := Prod.mk.inj (Option.some.inj h)
        rw [hc]
        exact ⟨rfl, by simpa using hstar⟩
    · split at h
      · obtain ⟨k, hk, heq⟩ := Option.map_eq_some_iff.1 h
        obtain ⟨rfl, rfl⟩ := Prod.mk.inj heq
        obtain ⟨⟨u, ⟨rest, hrest⟩, hu, rfl⟩, hmax⟩ := Url.linkLength?_eq_some_iff.1 hk
        cases u with
        | nil => exact absurd hk (Url.linkLength?_ne_zero _)
        | cons d v =>
          rw [List.cons_append] at hrest
          obtain ⟨rfl, rfl⟩ := List.cons.inj hrest
          rw [List.length_cons, Nat.add_sub_cancel, List.take_left, List.drop_left]
          exact ⟨hu, hmax⟩
      · cases h

/-- A marker that opens nothing begins a stretch of plain text. -/
theorem held_of_isMarker (before : Text) (hmarker : isMarker c = true)
    (hnone : opened? c t = none) : Held before [c] t := by
  have hnewline := (of_isMarker hmarker).2.2
  have hstar : c ≠ '*' := by
    rintro rfl
    simp only [opened?, Char.reduceEq, if_false, if_true] at hnone
    split at hnone <;> cases hnone
  refine ⟨⟨by simpa using hstar.symm, fun d hd => ?_, fun hc => ?_, fun hc => ?_, fun hc => ?_⟩, ?_⟩
  · rw [Markup.breakLength_eq_one (by simp)] at hd
    cases hd
  · obtain rfl := beq_iff_eq.1 hc
    exact Markup.codeLength?_eq_none_iff.1 (by simpa [opened?] using hnone)
  · obtain rfl := beq_iff_eq.1 hc
    exact Url.linkLength?_eq_none_iff.1 (by simpa [opened?] using hnone)
  · rw [show isNewline c = true from hc] at hnewline
    cases hnewline
  · intro x y heq hcolon
    have hmem : ':' ∈ [c] := by
      rw [heq]
      exact List.mem_append_right x hcolon
    rw [← List.mem_singleton.1 hmem] at hmarker
    cases hmarker

/-- So does a line break, unless it ends the paragraph. -/
theorem held_of_isNewline (before : Text) (h : startsWith isNewline t = true)
    (hblank : startsWith isBlank (t.drop (breakLength t)) = false) :
    Held before (t.take (breakLength t)) (t.drop (breakLength t)) := by
  have hmem : ∀ c ∈ t.take (breakLength t), isNewline c = true :=
    Markup.newlines_take_breakLength h
  have hnot : ∀ c, isNewline c = false → c ∉ t.take (breakLength t) := by
    intro c hc hin
    rw [hmem c hin] at hc
    cases hc
  have hstart : ∀ c, isNewline c = false →
      startsWith (· == c) (t.take (breakLength t)) = false := by
    intro c hc
    cases htake : t.take (breakLength t) with
    | nil => rfl
    | cons d u =>
      rw [Markup.startsWith_cons, beq_eq_false_iff_ne]
      rintro rfl
      exact hnot d hc (by rw [htake]; exact List.mem_cons_self)
  refine ⟨⟨hnot _ rfl, fun d hd => ?_, fun hc => ?_, fun hc => ?_, fun _ => ?_⟩, ?_⟩
  · have hnil : (t.take (breakLength t)).drop (breakLength (t.take (breakLength t))) = [] := by
      rcases Markup.break_cases h with ⟨u, rfl, hn⟩ | ⟨c, u, rfl, -, hn, -⟩
      · rw [hn]
        rfl
      · rw [hn]
        show [c].drop (breakLength [c]) = []
        rw [Markup.breakLength_eq_one (by simp)]
        rfl
    rw [hnil] at hd
    cases hd
  · rw [hstart _ rfl] at hc
    cases hc
  · rw [hstart _ rfl] at hc
    cases hc
  · rwa [List.take_append_drop]
  · intro x y heq hcolon
    refine absurd ?_ (hnot ':' rfl)
    rw [heq]
    exact List.mem_append_right x hcolon

end

/-! ### The lexemes of a paragraph -/

/-- Lexemes that follow each other between `before` and `post` are maximal, each one with the others
around it. -/
def AllMaximal (before post : Text) : List (Token.Kind × Text) → Prop
  | [] => True
  | (kind, v) :: ls =>
    Maximal before kind v (ls.flatMap (·.2) ++ post) ∧ AllMaximal (before ++ v) post ls

section
variable {post : Text} {held t : Text} {ls : List (Token.Kind × Text)}

theorem allMaximal_flush
    (htext : held ≠ [] → PlainText before held.reverse (ls.flatMap (·.2) ++ post))
    (h : AllMaximal (before ++ held.reverse) post ls) :
    AllMaximal before post (flush held ++ ls) := by
  by_cases hheld : held = []
  · rw [hheld, List.reverse_nil, List.append_nil] at h
    rwa [hheld]
  · rw [flush_of_ne_nil hheld]
    exact ⟨htext hheld, h⟩

/-- In front of a marker, a line break or the end, nothing can go on with a scheme. -/
theorem startsWith_isWord_or_colon (h : startsWith (fun c => !isSpecial c || c == ':') t = false) :
    startsWith (fun c => isWord c || c == ':') t = false := by
  cases t with
  | nil => rfl
  | cons c t =>
    obtain ⟨hspecial, hcolon⟩ := Bool.or_eq_false_iff.1 h
    show (isWord c || c == ':') = false
    rw [isWord_of_isSpecial (by simpa using hspecial), hcolon]
    rfl

/-- A part that a paragraph begins with can be cut off. -/
theorem prose_right {v w : Text} (hprose : prose (t ++ post) = t) (hsplit : t ++ post = v ++ w)
    (h : prose (v ++ w) = v ++ prose w) :
    t = v ++ prose w ∧ w = prose w ++ post ∧ prose (prose w ++ post) = prose w := by
  have ht : t = v ++ prose w := by rw [← hprose, hsplit, h]
  have hw : w = prose w ++ post := by
    rw [ht, List.append_assoc, List.append_cancel_left_eq] at hsplit
    exact hsplit.symm
  exact ⟨ht, hw, by rw [← hw]⟩

theorem prose_tail (hc : isNewline c = false) (h : prose (c :: t ++ post) = c :: t) :
    prose (t ++ post) = t := by
  rw [List.cons_append, Markup.prose_char hc] at h
  exact (List.cons.inj h).2

/-- What stands behind a paragraph is the end or a line break. -/
theorem startsWith_of_prose_eq_nil (h : prose post = []) :
    startsWith (fun c => isWord c || c == ':') post = false := by
  have hpost := Markup.prose_append_afterProse post
  rw [h, List.nil_append] at hpost
  rcases Markup.afterProse_cases post with hnil | hnewline
  · rw [← hpost, hnil]
    rfl
  · rw [hpost] at hnewline
    obtain ⟨c, u, rfl, hc⟩ := Markup.exists_of_startsWith hnewline
    refine startsWith_isWord_or_colon ?_
    simp [startsWith, Scanner.isSpecial_of_isNewline hc, (of_isNewline hc).1]

/-- A marker that opens nothing, or a line break inside the paragraph, begins a stretch. -/
theorem exists_held_of_unopened (before : Text) (hspecial : isSpecial c = true) (hcolon : c ≠ ':')
    (hnone : opened? c t = none) (hprose : prose (c :: t ++ post) = c :: t) :
    ∃ b w, t = b ++ w ∧ breakLength (c :: t) - 1 = b.length ∧ Held before (c :: b) (w ++ post) ∧
      prose (w ++ post) = w := by
  cases hnewline : isNewline c with
  | false =>
    have hmarker : isMarker c = true := by
      simpa [isSpecial, Scanner.isBreak, hnewline, hcolon] using hspecial
    have hlength : breakLength (c :: t) = 1 := by
      refine Markup.breakLength_eq_one ?_
      rintro u rfl -
      cases hnewline
    have htail := prose_tail hnewline hprose
    rw [← htail, opened?_prose] at hnone
    exact ⟨[], t, rfl, by rw [hlength]; rfl, held_of_isMarker before hmarker hnone, htail⟩
  | true =>
    have hstart : startsWith isNewline (c :: t ++ post) = true := hnewline
    have hlength := List.length_take_of_le (Markup.breakLength_le (t := c :: t ++ post) (by simp))
    have hpos := Scanner.breakLength_pos (c :: t ++ post)
    have hsplit := List.take_append_drop (breakLength (c :: t ++ post)) (c :: t ++ post)
    -- the paragraph goes on behind the line break, or it would end in front of it
    have hblank :
        startsWith isBlank ((c :: t ++ post).drop (breakLength (c :: t ++ post))) = false := by
      rw [← Bool.not_eq_true]
      intro hblank
      rw [(Markup.prose_end hstart hblank).1] at hprose
      cases hprose
    have hheld := held_of_isNewline before hstart hblank
    have hbreak := (Markup.prose_break hstart hblank).1
    have hn := (Markup.breakLength_append hstart (Markup.startsWith_prose hblank)).2.1
    generalize (c :: t ++ post).take (breakLength (c :: t ++ post)) = b at *
    generalize (c :: t ++ post).drop (breakLength (c :: t ++ post)) = w at *
    rw [← hsplit] at hbreak
    obtain ⟨ht, hw, hnext⟩ := prose_right hprose hsplit.symm hbreak
    rw [← ht, ← hlength] at hn
    rw [← hlength] at hpos
    rw [hw] at hheld
    cases b with
    | nil => cases hpos
    | cons d b =>
      obtain ⟨rfl, htb⟩ := List.cons.inj ht
      exact ⟨b, prose w, htb, by rw [hn]; rfl, hheld, hnext⟩

/-- The lexemes of a paragraph are maximal in the text. -/
theorem allMaximal_lexemes {glued : Bool} {held ahead before post : Text}
    (hglued : glued = endsInWord before) (hheld : Held before held.reverse (ahead ++ post))
    (hprose : prose (ahead ++ post) = ahead) :
    AllMaximal before post (lexemes glued held ahead) := by
  fun_induction lexemes glued held ahead generalizing before with
  | case1 glued held =>
    rw [← List.append_nil (flush held)]
    exact allMaximal_flush (fun _ => hheld.plainText (startsWith_of_prose_eq_nil hprose)) trivial
  | case2 glued held c t hspecial ih =>
    have hspecial : isSpecial c = false := by simpa using hspecial
    have hnewline := Scanner.isNewline_of_isSpecial_eq_false hspecial
    exact ih hglued (hheld.plain hspecial) (prose_tail hnewline hprose)
  | case3 glued held t _ hurl ih =>
    have htail := prose_tail rfl hprose
    rw [← htail, url?_prose, hglued] at hurl
    exact ih hglued (hheld.colon hurl) htail
  | case4 glued held t scheme n _ hurl ih =>
    have htail := prose_tail rfl hprose
    rw [← htail, url?_prose] at hurl
    obtain ⟨v, w, hsplit, rfl, hv, -⟩ := exists_of_url? hurl
    have hmax := maximal_url (before ++ (held.drop scheme).reverse) hurl
    have htext := hheld.plainText_of_url? hurl
    rw [hsplit, List.take_left, List.drop_left] at hmax
    obtain ⟨rfl, hw, hnext⟩ := prose_right htail hsplit (by rw [← hsplit]; exact hv)
    rw [List.take_left, List.drop_left] at ih ⊢
    refine allMaximal_flush (fun hne => ?_) ⟨?_, ih ?_ (.nil _ _) hnext⟩
    · have := htext (by simpa using hne)
      simpa [flatMap_lexemes] using this
    · rwa [flatMap_lexemes, List.reverse_nil, List.nil_append, ← hw]
    · rw [← List.append_assoc, endsInWord_append _ (List.cons_ne_nil _ _)]
  | case5 glued held c t _ _ hempty kind n hopened ih =>
    obtain rfl := List.isEmpty_iff.1 hempty
    have hnewline := (of_isMarker (isMarker_of_opened? hopened)).2.2
    have htail := prose_tail hnewline hprose
    rw [← htail, opened?_prose] at hopened
    obtain ⟨v, w, hsplit, rfl, hv, -⟩ := exists_of_opened? hopened
    have hmax := maximal_of_opened? before hopened
    rw [hsplit, List.take_left, List.drop_left] at hmax
    obtain ⟨rfl, hw, hnext⟩ := prose_right htail hsplit (by rw [← hsplit]; exact hv)
    rw [List.take_left, List.drop_left] at ih ⊢
    refine ⟨?_, ih (endsInWord_append before (by simp)).symm (.nil _ _) hnext⟩
    rwa [flatMap_lexemes, List.reverse_nil, List.nil_append, ← hw]
  | case6 glued held c t hspecial hcolon hempty hopened n =>
    rename_i ih
    obtain ⟨b, w, rfl, hn, hheld, hnext⟩ :=
      exists_held_of_unopened before (by simpa using hspecial) hcolon hopened hprose
    rw [show n = b.length from hn, List.take_left, List.drop_left] at ih ⊢
    exact ih hglued (by rwa [List.reverse_reverse]) hnext
  | case7 glued held c t hspecial hcolon hempty ih =>
    have hne : held ≠ [] := by simpa using hempty
    have hspecial : isSpecial c = true := by simpa using hspecial
    have hstop : startsWith (fun c => isWord c || c == ':') (c :: t ++ post) = false :=
      startsWith_isWord_or_colon (by simp [startsWith, hspecial, hcolon])
    refine allMaximal_flush (fun _ => ?_) (ih ?_ (.nil _ _) hprose)
    · rw [flatMap_lexemes]
      exact hheld.plainText hstop
    · rw [endsInWord_append before (by simpa using hne), endsInWord, List.reverse_reverse]

theorem maximalIn_of_mem_place {t : Token} (h : AllMaximal before post ls)
    (ht : t ∈ Token.place (Text.size before) ls) :
    t.MaximalIn (before ++ (ls.flatMap (·.2) ++ post)) := by
  induction ls generalizing before with
  | nil => cases ht
  | cons l ls ih =>
    obtain ⟨kind, v⟩ := l
    rw [List.flatMap_cons, List.append_assoc]
    rcases List.mem_cons.1 ht with rfl | ht
    · exact ⟨before, _, rfl, rfl, h.1⟩
    · rw [← Text.size_append] at ht
      rw [← List.append_assoc]
      exact ih h.2 ht

end

end Prose

/-! ### The tokens of a text -/

namespace Block
open Markup (startsWith breakLength indentedLength prose afterProse)
open Prose (endsInWord)

/-- The part `t` of a text, behind `before`, can be read on its own: no word goes on in it. -/
def Apart (before t : Text) : Prop :=
  t = [] ∨ startsWith isNewline t = true ∨ endsInWord before = false

/-- The tokens of a part of a text are maximal in the text. -/
def MaximalBehind (before t : Text) : Prop :=
  Apart before t → ∀ tok ∈ layout (Text.size before) t, tok.MaximalIn (before ++ t)

theorem maximalBehind_break {before t : Text} (h : startsWith isNewline t = true)
    (ih : MaximalBehind (before ++ t.take (breakLength t)) (t.drop (breakLength t))) :
    MaximalBehind before t := by
  intro _
  have hword : endsInWord (before ++ t.take (breakLength t)) = false := by
    rw [Prose.endsInWord_append before (Markup.take_breakLength_ne_nil h)]
    exact Markup.startsWith_isWord_eq_false (Markup.startsWith_reverse_break h)
  have hrest := ih (.inr (.inr hword))
  rw [Text.size_append, List.append_assoc, List.take_append_drop] at hrest
  rw [layout_break _ h]
  exact hrest

theorem maximalBehind_indented {before t : Text} (h : startsWith isIndent t = true)
    (ih : MaximalBehind (before ++ t.take (indentedLength t)) (t.drop (indentedLength t))) :
    MaximalBehind before t := by
  intro _
  have hsplit := List.take_append_drop (indentedLength t) t
  have hapart : Apart (before ++ t.take (indentedLength t)) (t.drop (indentedLength t)) := by
    refine (Markup.indentedLength_cases t).imp_right fun hlast => .inr ?_
    have hne : t.take (indentedLength t) ≠ [] := by
      simpa using Markup.ne_nil_of_startsWith hlast
    rw [Prose.endsInWord_append before hne]
    exact Markup.startsWith_isWord_eq_false hlast
  have hrest := ih hapart
  rw [Text.size_append, List.append_assoc, hsplit] at hrest
  rw [layout_indented _ h]
  refine List.forall_mem_cons.2 ⟨⟨before, t.drop (indentedLength t), ?_, rfl, trivial⟩, hrest⟩
  exact congrArg (before ++ ·) hsplit.symm

theorem maximalBehind_paragraph {before t : Text} (h : startsWith (!isBlank ·) t = true)
    (ih : MaximalBehind (before ++ prose t) (afterProse t)) : MaximalBehind before t := by
  intro hapart
  have hsplit := Markup.prose_append_afterProse t
  have hword : endsInWord before = false := by
    obtain ⟨c, u, rfl, hc⟩ := Markup.exists_of_startsWith h
    have hnewline : isNewline c = false := by simp_all [isBlank]
    simpa [Apart, startsWith, hnewline] using hapart
  have hlexemes : Prose.AllMaximal before (afterProse t) (Prose.lexemes false [] (prose t)) :=
    Prose.allMaximal_lexemes hword.symm (.nil _ _) (by rw [hsplit])
  have hrest := ih ((Markup.afterProse_cases t).imp_right .inl)
  rw [Text.size_append, List.append_assoc, hsplit] at hrest
  rw [layout_paragraph _ h, layoutProse]
  refine List.forall_mem_cons.2 ⟨⟨before, t, rfl, rfl, trivial⟩, ?_⟩
  refine List.forall_mem_append.2 ⟨fun tok htok => ?_, hrest⟩
  have := Prose.maximalIn_of_mem_place hlexemes htok
  rwa [Prose.flatMap_lexemes, List.reverse_nil, List.nil_append, hsplit] at this

/-- The tokens of every part that can be read on its own are maximal. -/
theorem maximalBehind (before t : Text) : MaximalBehind before t := by
  induction t using block_induction generalizing before with
  | nil =>
    intro _ tok htok
    rw [layout_nil] at htok
    rw [List.mem_singleton.1 htok]
    exact ⟨before, [], rfl, rfl, trivial⟩
  | brk t h ih => exact maximalBehind_break h (ih _)
  | indented t h ih => exact maximalBehind_indented h (ih _)
  | paragraph t h ih => exact maximalBehind_paragraph h (ih _)

end Block

theorem Token.maximalIn_scan {text : Text} {t : Token} (h : t ∈ scan text) : t.MaximalIn text := by
  rw [scan_eq_layout] at h
  exact Block.maximalBehind [] text (.inr (.inr rfl)) t h

/-- Markup that a text has is in the tokens. A star stands alone, code spans are code spans, and
what is plain text has nothing in it that could be read as markup. -/
theorem Token.markup_scan (text : Text) :
    ∀ t ∈ scan text, ∃ before after, text = before ++ (t.value ++ after) ∧
      t.span = .ofText (Text.size before).toUInt32 t.value ∧
      (t.kind = .star → t.value = ['*'] ∧ Markup.startsWith (· == '*') after = false) ∧
      (t.kind = .doubleStar → t.value = ['*', '*']) ∧
      (t.kind = .code → Markup.IsCodeSpan t.value) ∧
      (t.kind = .text → PlainText before t.value after) := by
  intro t ht
  obtain ⟨before, after, htext, hspan, hmax⟩ := maximalIn_scan ht
  refine ⟨before, after, htext, hspan, ?_⟩
  refine ⟨fun hkind => ?_, fun hkind => ?_, fun hkind => ?_, fun hkind => ?_⟩ <;>
    rw [hkind] at hmax <;> exact hmax

/-- A backtick without a code span: the next line is indented. -/
theorem Token.markup_scan_backtick :
    Token.ofText .text "`a".toList 4 ∈ scan "see `a\n b*`".toList ∧
      ∃ before after, "see `a\n b*`".toList = before ++ ("`a".toList ++ after) ∧
        PlainText before "`a".toList after := by
  have hmem : Token.ofText .text "`a".toList 4 ∈ scan "see `a\n b*`".toList := by decide +kernel
  obtain ⟨before, after, htext, -, -, -, -, hplain⟩ := markup_scan _ _ hmem
  exact ⟨hmem, before, after, htext, hplain rfl⟩

/-- A URL is found if there is one, and the one that is found is the longest. So the URLs in a text
end in front of what no path goes on with, and not with a mark between runs. -/
theorem Url.longest_length? (text : Text) (k : Nat) :
    (∀ n, length? (text.drop k) = some n ↔
      (∃ u, u <+: text.drop k ∧ IsUrl u ∧ u.length = n) ∧
        ∀ u, u <+: text.drop k → IsUrl u → u.length ≤ n) ∧
    (length? (text.drop k) = none ↔ ∀ u, u <+: text.drop k → ¬ IsUrl u) ∧
    ∀ t ∈ Token.scan text, t.kind = .url → ∃ before after, text = before ++ (t.value ++ after) ∧
      t.span = .ofText (Text.size before).toUInt32 t.value ∧ IsUrl t.value ∧
      length? (t.value ++ after) = some t.value.length ∧
      Markup.startsWith isPathChar after = false ∧
      ∀ c ∈ t.value.getLast?, isPathMark c = false := by
  refine ⟨fun n => length?_eq_some_iff, length?_eq_none_iff, fun t ht hkind => ?_⟩
  obtain ⟨before, after, htext, hspan, hmax⟩ := Token.maximalIn_scan ht
  rw [hkind] at hmax
  obtain ⟨hurl, hlongest⟩ := hmax
  refine ⟨before, after, htext, hspan, hurl, ?_, ?_, fun c hc => ?_⟩
  · exact length?_eq_some_iff.2 ⟨⟨t.value, List.prefix_append _ _, hurl, rfl⟩, hlongest⟩
  · -- one more character of the path would make a longer URL
    rw [← Bool.not_eq_true]
    intro hstart
    obtain ⟨c, rest, rfl, hc⟩ := Markup.exists_of_startsWith hstart
    have hle := hlongest (t.value ++ [c]) ⟨rest, by simp⟩ (hurl.append_char hc)
    rw [List.length_append, List.length_singleton] at hle
    exact Nat.not_succ_le_self _ hle
  · exact isPathMark_of_isPathChar c (hurl.isPathChar_of_getLast? hc)

end DocComment
