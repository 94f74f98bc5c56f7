import DocComment.Proofs.Coverage
import DocComment.Proofs.WordBoundaries

/-!
# No scheme begins in front of the stretch held

A scanner takes the word in front of a colon as the scheme of a URL only if it lies in the stretch
held. Between two steps (`Scanner.Idle`) a stretch begins at a seam and ends behind no word. So the
word in front of the next colon begins where the scanner stands or later, unless nothing is held and
the word ends where the scanner stands; and then no URL goes on behind the colon
(`Scanner.Seams.length?_eq_none`). Hence a scanner that takes every word in front of a colon makes
the same steps (`Scanner.Seams.step_unguard`).
-/

namespace DocComment

/-! ### The word in front of a colon -/

namespace Url
open Markup (startsWith)

/-- Behind the scheme and the colon of a URL there is a slash, which is of a path too. -/
theorem length?_eq_none_of_colon {word t : Text} (hword : ':' ∉ word)
    (h : startsWith isPathChar t = false) : length? (word ++ ':' :: t) = none := by
  refine length?_eq_none_iff.2 ?_
  rintro u ⟨tail, htail⟩ ⟨s, hs, host, slash, path, rfl, -⟩
  have hsplit : s ++ ':' :: ('/' :: '/' :: (host ++ slash ++ path) ++ tail) = word ++ ':' :: t := by
    simpa using htail
  obtain ⟨-, rfl⟩ := eq_of_append_cons_eq (colon_not_mem_of_mem_schemes hs) hword hsplit
  cases h

end Url

namespace Window
open Markup (startsWith)

/-- The offset at which the word in front of what lies ahead begins. -/
def wordStart (w : Window) : Nat := w.pos - Text.size w.word

theorem start_le_pos (w : Window) : w.start ≤ w.pos := by
  rw [w.pos_eq]
  exact Nat.le_add_right _ _

theorem colon_not_mem_word (w : Window) : ':' ∉ w.word.reverse := by
  intro hmem
  have hword := List.mem_takeWhile_imp (List.mem_reverse.1 hmem)
  cases hword

/-- The word lies in the stretch held, or begins in front of it. -/
theorem word_cases (w : Window) :
    w.word <+: w.held ∨
      ∃ c more rest, w.word = w.held ++ c :: more ∧ w.before = c :: more ++ rest ∧
        isWord c = true := by
  rw [word, List.takeWhile_append]
  split
  · cases hmore : w.before.takeWhile isWord with
    | nil =>
      rw [List.append_nil]
      exact .inl List.prefix_rfl
    | cons c more =>
      have hbefore := List.takeWhile_append_dropWhile (p := isWord) (l := w.before)
      rw [hmore] at hbefore
      have hc : c ∈ w.before.takeWhile isWord := by rw [hmore]; exact List.mem_cons_self
      exact .inr ⟨c, more, _, rfl, hbefore.symm, List.mem_takeWhile_imp hc⟩
  · exact .inl (List.takeWhile_prefix isWord)

theorem wordStart_lt_iff (w : Window) : w.wordStart < w.start ↔ w.held.length < w.word.length := by
  have hpos := w.pos_eq
  have hstart := w.start_eq
  rw [wordStart]
  rcases w.word_cases with ⟨front, hheld⟩ | ⟨c, more, rest, hword, hbefore, -⟩
  · have hlength : w.word.length ≤ w.held.length := by rw [← hheld, List.length_append]; omega
    have hsize : Text.size w.word ≤ Text.size w.held := by rw [← hheld, Text.size_append]; omega
    omega
  · have hc := c.utf8Size_pos
    have hsize : Text.size w.held < Text.size w.word ∧ Text.size w.word ≤ w.pos := by
      rw [hpos, hstart, hword, hbefore]
      simp only [Text.size_append, Text.size_cons]
      omega
    have hlength : w.held.length < w.word.length := by
      rw [hword, List.length_append, List.length_cons]
      omega
    omega

/-- A word that begins in front of the stretch held goes on through all of it. -/
theorem startsWith_of_wordStart_lt {w : Window} (h : w.wordStart < w.start) :
    startsWith isWord w.before = true ∧ ∀ c ∈ w.held, isWord c = true := by
  rw [wordStart_lt_iff] at h
  rcases w.word_cases with hpre | ⟨c, more, rest, hword, hbefore, hc⟩
  · exact absurd hpre.length_le (Nat.not_le.2 h)
  · refine ⟨by rw [hbefore]; exact hc, fun d hd => ?_⟩
    have hmem : d ∈ w.word := by rw [hword]; exact List.mem_append_left _ hd
    exact List.mem_takeWhile_imp hmem

/-- A word that begins in front of some characters that are read goes on through them. -/
theorem startsWith_of_wordStart_read_lt {w : Window} {n : Nat} (h : (w.read n).wordStart < w.pos) :
    startsWith isWord (w.held ++ w.before) = true ∧ ∀ c ∈ w.ahead.take n, isWord c = true := by
  -- it makes no difference to the word if the stretch is released first
  have hword : (w.release.read n).word = (w.read n).word := by simp [word, release]
  have hpos : (w.release.read n).pos = (w.read n).pos := by
    rw [pos_read, pos_read]
    rfl
  have hlt : (w.release.read n).wordStart < (w.release.read n).start := by
    rw [start_read, wordStart, hword, hpos]
    exact h
  obtain ⟨hbefore, hheld⟩ := startsWith_of_wordStart_lt hlt
  rw [before_read] at hbefore
  refine ⟨hbefore, fun c hc => hheld c ?_⟩
  rw [held_read]
  exact List.mem_append_left _ (List.mem_reverse.2 hc)

end Window

/-! ### Scanners between two steps -/

namespace Scanner
open Markup (startsWith)

/-- A scanner that comes up between two steps while `text` is read. -/
def Idle (text : Text) (s : Scanner) : Prop := Relation.ReflTransGen Turns (ofText text) s

/-- The next special character is a colon. -/
structure AtColon (s : Scanner) : Prop where
  pending : s.pending = none
  phase : s.phase = .prose
  ahead : startsWith (· == ':') s.seek.window.ahead = true

variable {s s' : Scanner} {text : Text}

theorem Seams.of_turns (hs : s.Seams) (h : s.Inv) (hturns : Turns s s') : s'.Seams := by
  cases hturns with
  | go hp hstep =>
    have hcuts := hs.cuts_step h hp
    rwa [hstep] at hcuts
  | emit hp hstep =>
    have hcuts := hs.cuts_step h hp
    rw [hstep] at hcuts
    exact hcuts.2
  | deliver => exact ⟨hs.seam, hs.held, fun t ht => by cases ht⟩

theorem Idle.seams (h : Idle text s) : s.Inv ∧ s.Seams := by
  induction h with
  | refl => exact ⟨inv_ofText text, seams_ofText text⟩
  | tail _ hturns ih => exact ⟨ih.1.of_turns hturns, ih.2.of_turns ih.1 hturns⟩

/-- The word in front of the next special character begins where the scanner stands or later, unless
nothing is held and the word ends right here. -/
theorem Seams.of_wordStart_lt (hs : s.Seams) (h : s.Inv)
    (hlt : s.seek.window.wordStart < s.window.pos) :
    s.window.held = [] ∧ startsWith isWord s.window.before = true ∧ s.seek.window = s.window := by
  have hseek := h.searches.window_seek
  have hsplit := List.takeWhile_append_dropWhile (p := fun c => !isSpecial c) (l := s.window.ahead)
  generalize s.window.ahead.takeWhile (fun c => !isSpecial c) = gap at hseek hsplit
  rw [hseek] at hlt
  obtain ⟨hword, hgap⟩ := Window.startsWith_of_wordStart_read_lt hlt
  have hheld : s.window.held = [] := by
    by_contra hne
    rw [Markup.startsWith_append _ hne, hs.held] at hword
    cases hword
  rw [hheld] at hword
  -- a word in front of the seam does not go on behind it
  have hrest := hs.seam.word hword
  rw [hheld] at hrest
  rw [← hsplit, List.take_left] at hgap
  rw [← hsplit] at hrest
  cases gap with
  | nil => exact ⟨hheld, hword, hseek⟩
  | cons c gap => exact absurd hrest (by simpa [startsWith] using hgap c List.mem_cons_self)

/-- No word is the scheme of a URL if it goes on in front of the stretch held. -/
theorem url?_eq_none_of_wordStart_lt (hguarded : s.policy.guarded = true)
    (h : s.window.wordStart < s.window.start) : s.url? = none := by
  rw [Window.wordStart_lt_iff] at h
  unfold url?
  simp [hguarded, h]

/-- A scheme begins where the scanner stands, or later. -/
theorem Seams.pos_le_wordStart (hs : s.Seams) (h : s.Inv) (hurl : s.seek.url? ≠ none) :
    s.window.pos ≤ s.seek.window.wordStart := by
  refine Nat.le_of_not_lt fun hlt => hurl ?_
  obtain ⟨hheld, -, hseek⟩ := hs.of_wordStart_lt h hlt
  refine url?_eq_none_of_wordStart_lt h.guarded ?_
  rw [hseek, start_eq_pos hheld]
  rwa [hseek] at hlt

theorem AtColon.step_eq (h : s.AtColon) {scheme n : Nat} (hurl : s.seek.url? = some (scheme, n)) :
    s.step = s.seek.urlStep scheme n := by
  obtain ⟨c, t, hahead, hc⟩ := Markup.exists_of_startsWith h.ahead
  simp only [step, h.phase, proseStep, hahead, if_pos (beq_iff_eq.1 hc), hurl]

theorem length_word_of_url? {scheme n : Nat} (h : s.url? = some (scheme, n)) :
    scheme = s.window.word.length := by
  unfold url? at h
  extract_lets word at h
  split at h
  · cases h
  · split at h
    · obtain ⟨k, -, heq⟩ := Option.map_eq_some_iff.1 h
      rw [← (Prod.mk.inj heq).1, List.length_reverse]
    · cases h

/-- If the word in front of a colon begins in front of the stretch held, no URL goes on behind the
colon. -/
theorem Seams.length?_eq_none (hs : s.Seams) (h : s.Inv) (hcolon : s.AtColon)
    (hlt : s.seek.window.wordStart < s.window.start) :
    Url.length? (s.seek.window.word.reverse ++ s.seek.window.ahead) = none := by
  obtain ⟨hheld, hword, hseek⟩ :=
    hs.of_wordStart_lt h (Nat.lt_of_lt_of_le hlt s.window.start_le_pos)
  obtain ⟨c, t, hahead, hc⟩ := Markup.exists_of_startsWith hcolon.ahead
  obtain rfl : c = ':' := beq_iff_eq.1 hc
  have hseam := hs.seam.colon hword t
  rw [hheld, ← hseek, hahead] at hseam
  rw [hahead]
  exact Url.length?_eq_none_of_colon (Window.colon_not_mem_word _) (hseam rfl)

/-! ### Without the guard -/

/-- The same scanner, which takes every word in front of a colon. -/
def unguard (s : Scanner) : Scanner := { s with policy := { s.policy with guarded := false } }

/-- A step with another scanner behind it. -/
def Step.map (f : Scanner → Scanner) : Step → Step
  | .stop => .stop
  | .go s => .go (f s)
  | .emit t s => .emit t (f s)

@[simp] theorem window_unguard (s : Scanner) : s.unguard.window = s.window := rfl

@[simp] theorem skip_unguard (s : Scanner) (n : Nat) : s.unguard.skip n = (s.skip n).unguard := rfl

@[simp] theorem seek_unguard (s : Scanner) : s.unguard.seek = s.seek.unguard := rfl

theorem blockStep_unguard (s : Scanner) : s.unguard.blockStep = s.blockStep.map unguard := by
  simp only [blockStep, window_unguard, skip_unguard]
  cases (s.skip (s.window.ahead.takeWhile isNewline).length).window.ahead with
  | nil => rfl
  | cons c t => rw [apply_ite (Step.map unguard)]; rfl

theorem breakStep_unguard (s : Scanner) : s.unguard.breakStep = s.breakStep.map unguard := by
  simp only [breakStep, apply_ite (Step.map unguard)]
  rfl

theorem markerStep_unguard (s : Scanner) (c : Char) :
    s.unguard.markerStep c = (s.markerStep c).map unguard := by
  simp only [markerStep, apply_ite (Step.map unguard), window_unguard, breakStep_unguard]
  cases Markup.codeLength? (s.window.ahead.drop 1) <;> cases Url.linkLength? s.window.ahead <;> rfl

theorem urlStep_unguard (s : Scanner) (scheme n : Nat) :
    s.unguard.urlStep scheme n = (s.urlStep scheme n).map unguard := by
  simp only [urlStep, apply_ite (Step.map unguard)]
  rfl

/-- Without the guard the same URLs are found, if the guard only keeps off what is no URL. -/
theorem url?_unguard
    (h : s.window.wordStart < s.window.start →
      Url.length? (s.window.word.reverse ++ s.window.ahead) = none) :
    s.unguard.url? = s.url? := by
  rw [Window.wordStart_lt_iff] at h
  simp only [url?, window_unguard, List.length_reverse]
  by_cases hlt : s.window.held.length < s.window.word.length
  · simp [unguard, h hlt]
  · simp [unguard, hlt]

theorem Seams.proseStep_unguard (hs : s.Seams) (h : s.Inv) (hp : s.pending = none)
    (hphase : s.phase = .prose) : s.unguard.proseStep = s.proseStep.map unguard := by
  simp only [proseStep, seek_unguard, window_unguard, markerStep_unguard]
  cases hahead : s.seek.window.ahead with
  | nil => rw [apply_ite (Step.map unguard)]; rfl
  | cons c t =>
    simp only [apply_ite (Step.map unguard)]
    by_cases hcolon : c = ':'
    · have hat : s.AtColon := ⟨hp, hphase, by rw [hahead, hcolon]; rfl⟩
      have hstart : s.seek.window.start = s.window.start := Window.start_read _ _
      have hurl := url?_unguard fun hlt => hs.length?_eq_none h hat (hstart ▸ hlt)
      rw [if_pos hcolon, if_pos hcolon, hurl]
      cases s.seek.url? with
      | none => rfl
      | some l => exact urlStep_unguard _ _ _
    · rw [if_neg hcolon, if_neg hcolon]
      rfl

/-- The guard makes no difference to any step. -/
theorem Seams.step_unguard (hs : s.Seams) (h : s.Inv) (hp : s.pending = none) :
    s.unguard.step = s.step.map unguard := by
  simp only [step, show s.unguard.phase = s.phase from rfl]
  cases hphase : s.phase with
  | block => exact blockStep_unguard s
  | prose => exact hs.proseStep_unguard h hp hphase
  | finish => rfl
  | done => rfl

theorem next?_eq_step (hp : s.pending = none) :
    s.next? =
      match s.step with
      | .stop => none
      | .go s' => s'.next?
      | .emit t s' => some (t, s') := by
  rw [next?]
  simp only [hp]
  split <;> simp only [*]

theorem Seams.next?_unguard (hs : s.Seams) (h : s.Inv) :
    s.unguard.next? = s.next?.map fun (t, s') => (t, s'.unguard) := by
  fun_induction next? s with
  | case1 s t hpending => exact next?_of_pending (s := s.unguard) hpending
  | case2 s hp hstep =>
    rw [next?_eq_step (s := s.unguard) hp, hs.step_unguard h hp, hstep]
    rfl
  | case3 s hp u hstep ih =>
    have hturns : Turns s u := .go hp hstep
    rw [next?_eq_step (s := s.unguard) hp, hs.step_unguard h hp, hstep]
    exact ih (hs.of_turns h hturns) (h.of_turns hturns)
  | case4 s hp t u hstep =>
    rw [next?_eq_step (s := s.unguard) hp, hs.step_unguard h hp, hstep]
    rfl

theorem Seams.tokens_unguard (hs : s.Seams) (h : s.Inv) : s.unguard.tokens = s.tokens := by
  fun_induction tokens s with
  | case1 s hnext =>
    refine tokens_of_next?_eq_none ?_
    rw [hs.next?_unguard h, hnext]
    rfl
  | case2 s t s' hnext ih =>
    have hnext' : s.unguard.next? = some (t, s'.unguard) := by
      rw [hs.next?_unguard h, hnext]
      rfl
    rw [tokens_of_next?_eq_some hnext', ih (hs.wholeIn_next? h hnext).2.1 (h.emits_next? hnext).1]

/-- A scanner for `text` that takes every word in front of a colon, whatever is held. -/
def unguarded (text : Text) : Scanner := { ofText text with policy := { guarded := false } }

end Scanner

/-- No token begins or ends inside a word. So a scheme begins where the scanner stands or later, and
the guard against schemes that begin before the stretch held keeps off no URL: the tokens are
the same without it. -/
theorem Token.whole_scan (text : Text) :
    (∀ t ∈ scan text, ∃ before after, text = before ++ (t.value ++ after) ∧
      t.span = .ofText (Text.size before).toUInt32 t.value ∧
      ¬ text.SplitsWord (Text.size before) ∧
      ¬ text.SplitsWord (Text.size before + Text.size t.value)) ∧
    (∀ s, Scanner.Idle text s → s.AtColon →
      (∀ scheme n, s.seek.url? = some (scheme, n) →
        s.step = s.seek.urlStep scheme n ∧ scheme = s.seek.window.word.length ∧
          s.window.start ≤ s.seek.window.wordStart ∧ s.window.pos ≤ s.seek.window.wordStart) ∧
      (s.seek.window.wordStart < s.window.start →
        Url.length? (s.seek.window.word.reverse ++ s.seek.window.ahead) = none)) ∧
    (Scanner.unguarded text).tokens = scan text := by
  refine ⟨fun t ht => wholeIn_scan ht, fun s hidle hcolon => ?_, ?_⟩
  · obtain ⟨hinv, hseams⟩ := hidle.seams
    refine ⟨fun scheme n hurl => ?_, hseams.length?_eq_none hinv hcolon⟩
    have hpos := hseams.pos_le_wordStart hinv (by rw [hurl]; simp)
    exact ⟨hcolon.step_eq hurl, Scanner.length_word_of_url? hurl,
      s.window.start_le_pos.trans hpos, hpos⟩
  · exact (Scanner.seams_ofText text).tokens_unguard (Scanner.inv_ofText text)

/-- In front of the first colon of this text stands a scheme, and in front of the second one the end
of the URL, which the guard keeps off. -/
theorem Token.whole_scan_colons :
    (Token.ofText .url "http://a/bc".toList 4 ∈ scan "see http://a/bc: d".toList ∧
      ∃ before after, "see http://a/bc: d".toList = before ++ ("http://a/bc".toList ++ after) ∧
        ¬ Text.SplitsWord "see http://a/bc: d".toList (Text.size before) ∧
        ¬ Text.SplitsWord "see http://a/bc: d".toList (Text.size before + 11)) ∧
    (∃ s, Scanner.Idle "see http://a/bc: d".toList s ∧ s.AtColon ∧ s.seek.url? = some (4, 6) ∧
      s.seek.window.wordStart = 4 ∧ s.window.pos ≤ 4) ∧
    ∃ s, Scanner.Idle "see http://a/bc: d".toList s ∧ s.AtColon ∧ s.window.start = 15 ∧
      s.seek.window.wordStart = 13 ∧
      Url.length? (s.seek.window.word.reverse ++ s.seek.window.ahead) = none := by
  obtain ⟨hwhole, hcolons, -⟩ := whole_scan "see http://a/bc: d".toList
  -- the beginning of the paragraph, then the text in front of the URL, while the URL waits
  obtain ⟨_, s, _, v, url, hfirst, hs, hurl, hscheme, hsecond, hpending, hv, hstart, hword⟩ :
      ∃ t s t' v url, (Scanner.ofText "see http://a/bc: d".toList).step = .emit t s ∧
        s.AtColon ∧ s.seek.url? = some (4, 6) ∧ s.seek.window.wordStart = 4 ∧
        s.step = .emit t' v ∧ v.pending = some url ∧ { v with pending := none }.AtColon ∧
        v.window.start = 15 ∧ { v with pending := none }.seek.window.wordStart = 13 :=
    ⟨_, _, _, _, _, rfl, ⟨rfl, rfl, rfl⟩, by decide +kernel, by decide +kernel, rfl, rfl,
      ⟨rfl, rfl, rfl⟩, rfl, rfl⟩
  have hidle : Scanner.Idle "see http://a/bc: d".toList s := .single (.emit rfl hfirst)
  have hidle' : Scanner.Idle "see http://a/bc: d".toList { v with pending := none } :=
    (hidle.tail (.emit hs.pending hsecond)).tail (.deliver hpending)
  refine ⟨?_, ⟨s, hidle, hs, hurl, hscheme, ?_⟩, ⟨_, hidle', hv, hstart, hword, ?_⟩⟩
  · have hmem : Token.ofText .url "http://a/bc".toList 4 ∈ scan "see http://a/bc: d".toList := by
      decide +kernel
    obtain ⟨before, after, htext, -, hbegin, hend⟩ := hwhole _ hmem
    exact ⟨hmem, before, after, htext, hbegin, hend⟩
  · obtain ⟨-, -, -, hpos⟩ := (hcolons s hidle hs).1 4 6 hurl
    rwa [hscheme] at hpos
  · refine (hcolons _ hidle' hv).2 ?_
    rw [hword]
    exact Nat.lt_of_lt_of_eq (by decide) hstart.symm

end DocComment
