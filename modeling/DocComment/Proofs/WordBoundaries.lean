import DocComment.Proofs.CachedSearch
import DocComment.Proofs.InlineMarkup

/-!
# Tokens do not divide words

A place in a text is a seam (`Text.Seam`) if no word goes on there and, behind a word, no colon with
more of a path does. Every token begins and ends at a seam. Most tokens end with a character of no
word, or in front of one. A URL may end with a word and stand in front of a colon, but it is the
longest, so neither more of a path nor a mark with more behind it can follow
(`Url.seam_of_isUrl`). That a scanner stands at a seam whenever it begins a stretch is kept by every
step (`Scanner.Seams.cuts_step`), and so no token divides a word (`Token.wholeIn_scan`).

What a scanner holds between two steps ends with a character of no word, whatever it took for markup
(`Scanner.Seams.held`).
-/

namespace DocComment

namespace Text
open Markup (startsWith)

/-- The offset `n` lies between two characters of a word. These have one byte each. -/
def SplitsWord (text : Text) (n : Nat) : Prop :=
  ∃ before c d after, text = before ++ c :: d :: after ∧ size (before ++ [c]) = n ∧
    isWord c = true ∧ isWord d = true

/-- A place at which a text may be divided, between `before`, last character first, and `rest`. -/
structure Seam (before rest : Text) : Prop where
  word : startsWith isWord before = true → startsWith isWord rest = false
  /-- Behind a word no colon goes on with a path. -/
  colon : startsWith isWord before = true → ∀ t, rest = ':' :: t →
    startsWith Url.isPathChar t = false

theorem eq_of_size_eq {t u v w : Text} (h : t ++ u = v ++ w) (hsize : size t = size v) :
    t = v ∧ u = w := by
  have ht := cutAt?_size_append t u
  rw [h, hsize, cutAt?_size_append] at ht
  obtain ⟨hv, hw⟩ := Prod.mk.inj (Option.some.inj ht)
  exact ⟨hv.symm, hw.symm⟩

namespace Seam
variable {before rest : Text}

theorem not_splitsWord (h : Seam before rest) :
    ¬ SplitsWord (before.reverse ++ rest) (size before) := by
  rintro ⟨front, c, d, after, htext, hsize, hc, hd⟩
  have hcut : before.reverse ++ rest = (front ++ [c]) ++ d :: after := by simpa using htext
  obtain ⟨hbefore, rfl⟩ := eq_of_size_eq hcut ((size_reverse before).trans hsize.symm)
  have hword : startsWith isWord before = true := by
    rw [← List.reverse_reverse before, hbefore, List.reverse_append]
    exact hc
  exact Bool.false_ne_true ((h.word hword).symm.trans hd)

theorem of_before (h : startsWith isWord before = false) (rest : Text) : Seam before rest where
  word hword := by rw [h] at hword; cases hword
  colon hword := by rw [h] at hword; cases hword

theorem of_rest (before : Text) (h : startsWith (fun c => isWord c || c == ':') rest = false) :
    Seam before rest := by
  cases rest with
  | nil => exact ⟨fun _ => rfl, fun _ t ht => by cases ht⟩
  | cons c rest =>
    obtain ⟨hc, hcolon⟩ : isWord c = false ∧ c ≠ ':' := by simpa [startsWith] using h
    exact ⟨fun _ => hc, fun _ t ht => absurd (List.cons.inj ht).1 hcolon⟩

theorem of_nil (before : Text) : Seam before [] := of_rest before rfl

/-- Line breaks keep words apart. -/
theorem newlines {gap : Text} (h : Seam before (gap ++ rest)) (hgap : Newlines gap) :
    Seam (gap.reverse ++ before) rest := by
  by_cases hne : gap = []
  · subst hne
    exact h
  · have hlast := Markup.startsWith_reverse_newlines hne hgap
    exact of_before (Markup.startsWith_isWord_append hlast before) rest

end Seam

end Text

/-! ### Where URLs and other inline tokens end -/

namespace Url
open Markup (startsWith)

theorem isPathChar_of_isWord {c : Char} (h : isWord c = true) : isPathChar c = true := by
  rw [isPathChar, h, Bool.true_or]

theorem IsRuns.append_mark {isChar isMark : Char → Bool} {t : Text} {mark c : Char}
    (h : IsRuns isChar isMark t) (hmark : isMark mark = true) (hc : isChar c = true) :
    IsRuns isChar isMark (t ++ [mark, c]) := by
  have hrun : IsRuns isChar isMark [c] := .run (List.cons_ne_nil c []) (by simpa using hc)
  induction h with
  | run hne hchars => exact .cons hne hchars hmark hrun
  | cons hne hchars hmark' _ ih =>
    rw [List.append_assoc, List.cons_append]
    exact .cons hne hchars hmark' ih

theorem IsUrl.append_mark {u : Text} {mark c : Char} (h : IsUrl u) (hmark : isPathMark mark = true)
    (hc : isPathChar c = true) : IsUrl (u ++ [mark, c]) := by
  obtain ⟨s, hs, host, slash, path, rfl, hhost, hslash, hpath⟩ := h
  exact ⟨s, hs, host, slash, path ++ [mark, c], by simp, hhost, hslash, hpath.append_mark hmark hc⟩

/-- Behind the longest URL there is neither more of a path nor a mark with more behind it. -/
theorem seam_of_isUrl {u rest : Text} (hu : IsUrl u)
    (hlongest : ∀ v, v <+: u ++ rest → IsUrl v → v.length ≤ u.length) (before : Text) :
    Text.Seam (u.reverse ++ before) rest := by
  have hshort : ∀ m, m ≠ [] → m <+: rest → ¬ IsUrl (u ++ m) := by
    rintro m hm ⟨tail, rfl⟩ hurl
    have hle := hlongest (u ++ m) ⟨tail, by rw [List.append_assoc]⟩ hurl
    have hpos := List.length_pos_iff.2 hm
    rw [List.length_append] at hle
    omega
  constructor
  · intro _
    rw [← Bool.not_eq_true]
    intro hstart
    obtain ⟨c, t, rfl, hc⟩ := Markup.exists_of_startsWith hstart
    exact hshort [c] (by simp) ⟨t, rfl⟩ (hu.append_char (isPathChar_of_isWord hc))
  · rintro _ t rfl
    rw [← Bool.not_eq_true]
    intro hstart
    obtain ⟨c, t, rfl, hc⟩ := Markup.exists_of_startsWith hstart
    exact hshort [':', c] (by simp) ⟨t, rfl⟩ (hu.append_mark rfl hc)

end Url

namespace Prose

/-- A token that a marker opens ends with a marker or a parenthesis. -/
theorem endsInWord_of_opened? {c : Char} {t : Text} {kind : Token.Kind} {n : Nat}
    (h : opened? c t = some (kind, n)) : endsInWord (c :: t.take n) = false := by
  have hmax := maximal_of_opened? [] h
  unfold opened? at h
  split at h
  · obtain ⟨k, -, heq⟩ := Option.map_eq_some_iff.1 h
    obtain ⟨rfl, rfl⟩ := Prod.mk.inj heq
    obtain ⟨body, hv, -⟩ := Markup.IsCodeSpan.quoted hmax
    rw [hv, endsInWord_append _ (by simp)]
    rfl
  · split at h
    · split at h
      · obtain ⟨rfl, rfl⟩ := Prod.mk.inj (Option.some.inj h)
        rw [show c :: t.take 1 = ['*', '*'] from hmax]
        rfl
      · obtain ⟨rfl, rfl⟩ := Prod.mk.inj (Option.some.inj h)
        rw [hmax.1]
        rfl
    · split at h
      · obtain ⟨k, -, heq⟩ := Option.map_eq_some_iff.1 h
        obtain ⟨rfl, rfl⟩ := Prod.mk.inj heq
        obtain ⟨⟨name, url, hv, -⟩, -⟩ := hmax
        rw [hv, Url.linkText, endsInWord_append _ (by simp)]
        rfl
      · cases h

end Prose

/-! ### Tokens with whole words -/

namespace Token

/-- A token that stands somewhere in `text` and divides no word there, neither where it begins nor
where it ends. -/
def WholeIn (text : Text) (t : Token) : Prop :=
  ∃ before after, text = before ++ (t.value ++ after) ∧
    t.span = .ofText (Text.size before).toUInt32 t.value ∧
    ¬ text.SplitsWord (Text.size before) ∧
    ¬ text.SplitsWord (Text.size before + Text.size t.value)

theorem wholeIn_ofText {before v after : Text} (kind : Kind)
    (hstart : Text.Seam before (v ++ after)) (hend : Text.Seam (v.reverse ++ before) after) :
    (ofText kind v (Text.size before).toUInt32).WholeIn (before.reverse ++ (v ++ after)) := by
  refine ⟨before.reverse, after, rfl, ?_, ?_, ?_⟩
  · rw [Text.size_reverse]
    rfl
  · rw [Text.size_reverse]
    exact hstart.not_splitsWord
  · have hnot := hend.not_splitsWord
    rw [List.reverse_append, List.reverse_reverse, List.append_assoc, Text.size_append,
      Text.size_reverse, Nat.add_comm] at hnot
    rwa [Text.size_reverse]

end Token

namespace Scanner
open Markup (startsWith)
open Text (Seam)

/-- The stretch held begins at a seam of the text and ends behind no word; and a token that waits
divides no word. -/
structure Seams (s : Scanner) : Prop where
  seam : Seam s.window.before (s.window.held.reverse ++ s.window.ahead)
  held : startsWith isWord s.window.held = false
  pending : ∀ t ∈ s.pending, t.WholeIn s.window.text

/-- What a step hands out divides no word of `text`, and the scanner behind it stands at a seam. -/
def Step.Cuts (text : Text) : Step → Prop
  | .stop => True
  | .go s => s.Seams
  | .emit t s => t.WholeIn text ∧ s.Seams

variable {s : Scanner}

theorem Seams.of_pending (hp : s.pending = none)
    (hseam : Seam s.window.before (s.window.held.reverse ++ s.window.ahead))
    (hheld : startsWith isWord s.window.held = false) : s.Seams :=
  ⟨hseam, hheld, fun t ht => by rw [hp] at ht; cases ht⟩

/-! ### The moves -/

theorem seam_advance {n : Nat} (phase : Phase)
    (h : Seam ((s.window.ahead.take n).reverse ++ s.window.held ++ s.window.before)
      (s.window.ahead.drop n)) :
    Seam (s.advance n phase).window.before
      ((s.advance n phase).window.held.reverse ++ (s.advance n phase).window.ahead) := by
  rw [before_advance, show (s.advance n phase).window.held.reverse = [] from rfl, ahead_advance]
  exact h

/-- A token of the stretch held and of the next `n` characters. -/
theorem cuts_emit (hp : s.pending = none)
    (hstart : Seam s.window.before (s.window.held.reverse ++ s.window.ahead)) {n : Nat}
    (hend : Seam ((s.window.ahead.take n).reverse ++ s.window.held ++ s.window.before)
      (s.window.ahead.drop n)) (kind : Token.Kind) (phase : Phase) :
    (Step.emit ((s.window.read n).token kind) (s.advance n phase)).Cuts s.window.text := by
  refine ⟨?_, .of_pending hp (seam_advance phase hend) rfl⟩
  have hsplit : s.window.held.reverse ++ s.window.ahead =
      (s.window.held.reverse ++ s.window.ahead.take n) ++ s.window.ahead.drop n := by
    rw [List.append_assoc, List.take_append_drop]
  rw [token_read hp, offset_eq hp, s.window.start_eq, Window.text, List.append_assoc, hsplit]
  rw [hsplit] at hstart
  refine Token.wholeIn_ofText kind hstart ?_
  rwa [List.reverse_append, List.reverse_reverse]

/-- Reading on, up to a character of no word. -/
theorem seams_read (hp : s.pending = none)
    (hseam : Seam s.window.before (s.window.held.reverse ++ s.window.ahead)) {n : Nat}
    (h : startsWith isWord ((s.window.ahead.take n).reverse ++ s.window.held) = false) :
    (s.read n).Seams := by
  refine .of_pending hp ?_ ?_
  · show Seam (s.window.read n).before ((s.window.read n).held.reverse ++ (s.window.read n).ahead)
    rw [Window.before_read, Window.held_read, Window.ahead_read, List.reverse_append,
      List.reverse_reverse, List.append_assoc, List.take_append_drop]
    exact hseam
  · show startsWith isWord (s.window.read n).held = false
    rwa [Window.held_read]

/-! ### The steps -/

theorem cuts_indentedStep (hp : s.pending = none) (hheld : s.window.held = [])
    (hseam : Seam s.window.before s.window.ahead) : s.indentedStep.Cuts s.window.text := by
  refine cuts_emit hp (by rw [hheld]; exact hseam) ?_ .indented .block
  rw [hheld, List.append_nil]
  -- the run ends with a line break, or the text does not go on
  rcases Markup.indentedLength_cases s.window.ahead with hnil | hlast
  · rw [hnil]
    exact .of_nil _
  · exact .of_before (Markup.startsWith_isWord_append hlast _) _

/-- Behind some line breaks a new stretch may begin. -/
theorem seam_skip {n : Nat} (hheld : s.window.held = [])
    (hseam : Seam s.window.before s.window.ahead) (hgap : Newlines (s.window.ahead.take n)) :
    Seam (s.skip n).window.before (s.skip n).window.ahead := by
  refine seam_advance s.phase ?_
  rw [hheld, List.append_nil]
  refine Seam.newlines ?_ hgap
  rwa [List.take_append_drop]

theorem cuts_blockStep (hp : s.pending = none) (hheld : s.window.held = [])
    (hseam : Seam s.window.before s.window.ahead) : s.blockStep.Cuts s.window.text := by
  unfold blockStep
  extract_lets breaks t
  have hsplit : s.window.ahead = breaks ++ s.window.ahead.dropWhile isNewline :=
    List.takeWhile_append_dropWhile.symm
  have hgap : Newlines (s.window.ahead.take breaks.length) := by
    rw [hsplit, List.take_left]
    exact List.all_eq_true.1 List.all_takeWhile
  have hseam' : Seam t.window.before t.window.ahead := seam_skip hheld hseam hgap
  rw [← text_skip s breaks.length]
  split
  · exact .of_pending hp hseam' rfl
  · split
    · exact cuts_indentedStep hp rfl hseam'
    · exact cuts_emit (s := t) (n := 0) hp hseam' hseam' .paragraph .prose

theorem cuts_breakStep (hp : s.pending = none) (hheld : s.window.held = [])
    (hseam : Seam s.window.before s.window.ahead)
    (hahead : startsWith isNewline s.window.ahead = true) : s.breakStep.Cuts s.window.text := by
  unfold breakStep
  extract_lets n rest
  have hgap : Newlines (s.window.ahead.take n) := Markup.newlines_take_breakLength hahead
  split
  · rw [← text_skip s n]
    exact cuts_indentedStep hp rfl (seam_skip hheld hseam hgap)
  · split
    · next hnewline =>
      refine .of_pending hp (seam_skip hheld hseam ?_) rfl
      rw [List.take_add]
      exact hgap.append (Markup.newlines_take_breakLength hnewline)
    · refine seams_read hp (by rwa [hheld]) ?_
      rw [hheld, List.append_nil]
      exact Markup.startsWith_isWord_eq_false (Markup.startsWith_reverse_break hahead)

theorem cuts_markerStep (hp : s.pending = none) (hheld : s.window.held = [])
    (hseam : Seam s.window.before s.window.ahead) {c : Char} {t : Text}
    (hahead : s.window.ahead = c :: t) (hspecial : isSpecial c = true) (hcolon : c ≠ ':') :
    (s.markerStep c).Cuts s.window.text := by
  cases hmarker : isMarker c with
  | true =>
    rw [markerStep_eq hahead hmarker]
    cases hopened : Prose.opened? c t with
    | none =>
      refine seams_read hp (by rwa [hheld]) ?_
      rw [hheld, hahead]
      exact Prose.isWord_of_isSpecial hspecial
    | some l =>
      obtain ⟨kind, n⟩ := l
      refine cuts_emit hp (by rwa [hheld]) (.of_before ?_ _) kind s.phase
      rw [hheld, List.append_nil, hahead, List.take_succ_cons, Markup.startsWith_append _ (by simp)]
      exact Prose.endsInWord_of_opened? hopened
  | false =>
    obtain ⟨hnewline, hbreak⟩ := markerStep_eq_breakStep hmarker hspecial hcolon
    rw [hbreak]
    exact cuts_breakStep hp hheld hseam (by rw [hahead]; exact hnewline)

/-- A token that is handed out and one that waits, of the stretch held and of the next `n`
characters. -/
theorem cuts_pair {n : Nat} {front url : Text}
    (hsplit : s.window.held.reverse ++ s.window.ahead.take n = front.reverse ++ url)
    (hstart : Seam s.window.before (s.window.held.reverse ++ s.window.ahead))
    (hbetween : Seam (front ++ s.window.before) (url ++ s.window.ahead.drop n))
    (hend : Seam (url.reverse ++ (front ++ s.window.before)) (s.window.ahead.drop n)) :
    (Step.emit (.ofText .text front.reverse s.window.start.toUInt32)
      { s.advance n s.phase with
        pending := some (.ofText .url url (s.window.start + Text.size front).toUInt32) }).Cuts
      s.window.text := by
  have hrest : s.window.held.reverse ++ s.window.ahead =
      front.reverse ++ (url ++ s.window.ahead.drop n) := by
    rw [← List.append_assoc, ← hsplit, List.append_assoc, List.take_append_drop]
  have htext : s.window.text =
      s.window.before.reverse ++ (front.reverse ++ (url ++ s.window.ahead.drop n)) := by
    rw [Window.text, List.append_assoc, hrest]
  have hread : url.reverse ++ front = (s.window.ahead.take n).reverse ++ s.window.held := by
    simpa using congrArg List.reverse hsplit.symm
  refine ⟨?_, seam_advance s.phase ?_, rfl, fun t ht => ?_⟩
  · rw [htext, s.window.start_eq]
    rw [hrest] at hstart
    exact Token.wholeIn_ofText .text hstart (by rwa [List.reverse_reverse])
  · rwa [← hread, List.append_assoc]
  · cases ht
    have hwhole := Token.wholeIn_ofText .url hbetween hend
    rw [Text.size_append, Nat.add_comm, ← s.window.start_eq, List.reverse_append,
      List.append_assoc, ← htext] at hwhole
    rwa [show (s.advance n s.phase).window.text = s.window.text from text_skip s n]

/-- A URL that is found begins behind a character of no word, and is the longest. -/
theorem cuts_urlStep (hp : s.pending = none)
    (hseam : Seam s.window.before (s.window.held.reverse ++ s.window.ahead)) {glued : Bool}
    {t : Text} {scheme n : Nat} (hahead : s.window.ahead = ':' :: t)
    (hurl : Prose.url? glued s.window.held (':' :: t) = some (scheme, n)) :
    (s.urlStep scheme n).Cuts s.window.text := by
  obtain ⟨-, -, hword, -⟩ := Prose.scheme_of_url? hurl
  obtain ⟨hisUrl, hlongest⟩ := Prose.maximal_url [] hurl
  obtain ⟨v, w, rfl, rfl, -, -⟩ := Prose.exists_of_url? hurl
  rw [List.take_left] at hisUrl hlongest
  rw [List.drop_left] at hlongest
  have htake : s.window.ahead.take (v.length + 1) = ':' :: v := by
    rw [hahead, List.take_succ_cons, List.take_left]
  have hdrop : s.window.ahead.drop (v.length + 1) = w := by
    rw [hahead, List.drop_succ_cons, List.drop_left]
  have hheld := List.take_append_drop scheme s.window.held
  have hend := Url.seam_of_isUrl hisUrl hlongest (s.window.held.drop scheme ++ s.window.before)
  rcases Nat.lt_or_ge scheme s.window.held.length with hlt | hle
  · have hne : s.window.held.drop scheme ≠ [] := by
      rw [ne_eq, List.drop_eq_nil_iff]
      exact Nat.not_le.2 hlt
    rw [urlStep_of_lt (show s.window.ahead = (':' :: v) ++ w from hahead) rfl hlt]
    refine cuts_pair ?_ hseam (.of_before ?_ _) (by rwa [hdrop])
    · rw [htake, ← List.append_assoc, ← List.reverse_append, hheld]
    · rwa [Markup.startsWith_append _ hne]
  · rw [urlStep_of_le hle]
    refine cuts_emit hp hseam ?_ .url s.phase
    have hread : ((s.window.held.take scheme).reverse ++ ':' :: v).reverse ++
        (s.window.held.drop scheme ++ s.window.before) =
          (':' :: v).reverse ++ s.window.held ++ s.window.before := by
      rw [List.reverse_append, List.reverse_reverse, ← List.append_assoc,
        List.append_assoc (':' :: v).reverse, hheld]
    rwa [htake, hdrop, ← hread]

/-! ### Whole runs -/

theorem Seams.seam_seek (hs : s.Seams) (h : s.Inv) :
    Seam s.seek.window.before (s.seek.window.held.reverse ++ s.seek.window.ahead) := by
  rw [h.searches.held_seek, h.searches.ahead_seek, h.searches.window_seek, Window.before_read,
    List.reverse_append, List.reverse_reverse, List.append_assoc, List.takeWhile_append_dropWhile]
  exact hs.seam

theorem Seams.cuts_proseStep (hs : s.Seams) (h : s.Inv) (hp : s.pending = none)
    (hphase : s.phase = .prose) : s.proseStep.Cuts s.window.text := by
  have hahead := h.searches.ahead_seek
  have hinv := h.seek hp hphase
  have hseam := hs.seam_seek h
  rw [← text_seek s]
  replace hp : s.seek.pending = none := hp
  unfold proseStep
  generalize s.seek = t at *
  dsimp only
  split
  · next hnil =>
    have hend : Seam (t.window.held ++ t.window.before) t.window.ahead := by
      rw [hnil]
      exact .of_nil _
    split
    · next hheld =>
      refine .of_pending hp hseam ?_
      show startsWith isWord t.window.held = false
      rw [List.isEmpty_iff.1 hheld]
      rfl
    · exact cuts_emit (n := 0) hp hseam hend .text .finish
  · next c rest hcons =>
    have hspecial : isSpecial c = true := isSpecial_of_dropWhile (hahead.symm.trans hcons)
    have hword := Prose.isWord_of_isSpecial hspecial
    split
    · next hcolon =>
      subst hcolon
      split
      · next scheme n hsome =>
        rw [hinv.url?_eq, hcons] at hsome
        exact cuts_urlStep hp hseam hcons hsome
      · refine seams_read hp hseam ?_
        rw [hcons]
        exact hword
    · next hcolon =>
      split
      · refine cuts_emit (n := 0) hp hseam (.of_rest _ ?_) .text t.phase
        rw [List.drop_zero, hcons]
        exact Prose.startsWith_isWord_or_colon (by simp [startsWith, hspecial, hcolon])
      · next hheld =>
        have hheld : t.window.held = [] := by simpa using hheld
        rw [hheld] at hseam
        exact cuts_markerStep hp hheld hseam hcons hspecial hcolon

theorem Seams.cuts_step (hs : s.Seams) (h : s.Inv) (hp : s.pending = none) :
    s.step.Cuts s.window.text := by
  unfold step
  split
  · next hphase =>
    have hheld := h.block hphase
    have hseam := hs.seam
    rw [hheld] at hseam
    exact cuts_blockStep hp hheld hseam
  · next hphase => exact hs.cuts_proseStep h hp hphase
  · next hphase =>
    obtain ⟨-, hahead⟩ := h.finish (.inl hphase)
    have hseam : Seam (s.window.held ++ s.window.before) s.window.ahead := by
      rw [hahead]
      exact .of_nil _
    rw [← text_skip s 0]
    exact cuts_emit (s := s.skip 0) (n := 0) hp hseam hseam .finish .done
  · trivial

/-- A token that is pulled divides no word. -/
theorem Seams.wholeIn_next? (hs : s.Seams) (h : s.Inv) {t : Token} {s' : Scanner}
    (hnext : s.next? = some (t, s')) :
    t.WholeIn s.window.text ∧ s'.Seams ∧ s'.window.text = s.window.text := by
  fun_induction next? s with
  | case1 s u hpending =>
    cases hnext
    exact ⟨hs.pending t hpending, ⟨hs.seam, hs.held, fun u hu => by cases hu⟩, rfl⟩
  | case2 => cases hnext
  | case3 s hp u hstep ih =>
    have hcuts := hs.cuts_step h hp
    have hsound := h.sound_step hp
    have hreads := reads_step s
    rw [hstep] at hcuts hsound hreads
    rw [← show u.window.text = s.window.text from hreads]
    exact ih hcuts hsound.1 hnext
  | case4 s hp u v hstep =>
    cases hnext
    have hcuts := hs.cuts_step h hp
    have hreads := reads_step s
    rw [hstep] at hcuts hreads
    exact ⟨hcuts.1, hcuts.2, hreads⟩

theorem Seams.wholeIn_tokens (hs : s.Seams) (h : s.Inv) :
    ∀ t ∈ s.tokens, t.WholeIn s.window.text := by
  fun_induction tokens s with
  | case1 => simp
  | case2 s t s' hnext ih =>
    obtain ⟨hwhole, hs', htext⟩ := hs.wholeIn_next? h hnext
    rw [← htext] at hwhole ⊢
    exact List.forall_mem_cons.2 ⟨hwhole, ih hs' (h.emits_next? hnext).1⟩

theorem seams_ofText (text : Text) : (ofText text).Seams :=
  ⟨.of_before rfl _, rfl, fun t ht => by cases ht⟩

end Scanner

theorem Token.wholeIn_scan {text : Text} {t : Token} (h : t ∈ scan text) : t.WholeIn text :=
  (Scanner.seams_ofText text).wholeIn_tokens (Scanner.inv_ofText text) t h

end DocComment
