import DocComment.Proofs.ScannerInv

/-!
# Every step of a scanner is sound

One lemma for each step function, from the primitive moves up: reading on, dropping line breaks,
and making a token of the stretch held.
-/

namespace DocComment

/-! ### Where line breaks and code spans end -/

namespace Markup

theorem startsWith_cons (p : Char → Bool) (c : Char) (t : Text) : startsWith p (c :: t) = p c := rfl

theorem exists_of_startsWith {p : Char → Bool} {t : Text} (h : startsWith p t = true) :
    ∃ c rest, t = c :: rest ∧ p c = true := by
  cases t with
  | nil => cases h
  | cons c rest => exact ⟨c, rest, rfl, h⟩

theorem newlines_take_breakLength {t : Text} (h : startsWith isNewline t = true) :
    Newlines (t.take (breakLength t)) := by
  obtain ⟨c, rest, rfl, hc⟩ := exists_of_startsWith h
  unfold breakLength
  split
  · next heq =>
    obtain ⟨rfl, rfl⟩ := List.cons.inj heq
    simp [Newlines, isNewline]
  · simpa [Newlines] using hc

theorem exists_of_codeLength? {t : Text} {n : Nat} (h : codeLength? t = some n) :
    ∃ body rest, '`' ∉ body ∧ t = body ++ '`' :: rest ∧ n = body.length + 1 := by
  fun_induction codeLength? t generalizing n with
  | case1 => cases h
  | case2 rest => exact ⟨[], rest, List.not_mem_nil, rfl, (Option.some.inj h).symm⟩
  | case3 t hblank => cases h
  | case4 t hblank ih =>
    obtain ⟨k, hk, rfl⟩ := Option.map_eq_some_iff.1 h
    obtain ⟨body, rest, hbody, rfl, rfl⟩ := ih hk
    exact ⟨'\r' :: '\n' :: body, rest, by simpa using hbody, rfl, rfl⟩
  | case5 c t hc hcr hblank => cases h
  | case6 c t hc hcr hblank ih =>
    obtain ⟨k, hk, rfl⟩ := Option.map_eq_some_iff.1 h
    obtain ⟨body, rest, hbody, rfl, rfl⟩ := ih hk
    refine ⟨c :: body, rest, ?_, rfl, rfl⟩
    rw [List.mem_cons, not_or]
    exact ⟨fun h => hc h.symm, hbody⟩

end Markup

namespace Scanner
open Token (Lexeme)

variable {s : Scanner}

/-! ### The moves -/

theorem Searches.read (h : s.Searches) (n : Nat) : (s.read n).Searches :=
  ⟨h.marker.read n, h.brk.read n⟩

theorem Inv.read (h : s.Inv) (hp : s.pending = none) (hphase : s.phase = .prose) (n : Nat) :
    (s.read n).Inv where
  searches := h.searches.read n
  guarded := h.guarded
  pending t ht := by rw [show (s.read n).pending = none from hp] at ht; cases ht
  block hb := by rw [show (s.read n).phase = .prose from hphase] at hb; cases hb
  finish hf := by rw [show (s.read n).phase = .prose from hphase] at hf; simp at hf

/-- Reading `n` characters and releasing the stretch, into another phase. -/
def advance (s : Scanner) (n : Nat) (phase : Phase) : Scanner :=
  { s with window := (s.window.read n).release, phase }

@[simp] theorem phase_advance (s : Scanner) (n : Nat) (phase : Phase) :
    (s.advance n phase).phase = phase := rfl

theorem Inv.advance (h : s.Inv) (hp : s.pending = none) (n : Nat) (phase : Phase)
    (hend : phase = .finish ∨ phase = .done → s.window.ahead.drop n = []) :
    (s.advance n phase).Inv where
  searches := ⟨(h.searches.marker.read n).release, (h.searches.brk.read n).release⟩
  guarded := h.guarded
  pending t ht := by rw [show (s.advance n phase).pending = none from hp] at ht; cases ht
  block _ := rfl
  finish hf := ⟨rfl, (Window.ahead_read s.window n).trans (hend hf)⟩

theorem rest_advance (hp : s.pending = none) (n : Nat) (phase : Phase) :
    (s.advance n phase).rest = s.window.ahead.drop n := by
  rw [rest_eq (show (s.advance n phase).pending = none from hp)]
  exact Window.ahead_read s.window n

theorem rest_eq_append (hp : s.pending = none) (n : Nat) (phase : Phase) :
    s.rest = (s.window.held.reverse ++ s.window.ahead.take n) ++ (s.advance n phase).rest := by
  rw [rest_eq hp, rest_advance hp, List.append_assoc, List.take_append_drop]

theorem offset_advance (hp : s.pending = none) (n : Nat) (phase : Phase) :
    (s.advance n phase).offset =
      s.offset + Text.size (s.window.held.reverse ++ s.window.ahead.take n) := by
  rw [offset_eq (show (s.advance n phase).pending = none from hp), offset_eq hp]
  show (s.window.read n).pos = _
  rw [(s.window.read n).pos_eq, Window.start_read, Window.held_read]
  simp only [Text.size_append, Text.size_reverse]
  omega

theorem token_read (hp : s.pending = none) (n : Nat) (kind : Token.Kind) :
    (s.window.read n).token kind =
      .ofText kind (s.window.held.reverse ++ s.window.ahead.take n) s.offset.toUInt32 := by
  rw [Window.token, Window.held_read, Window.start_read, offset_eq hp, List.reverse_append,
    List.reverse_reverse]

theorem Inv.sound_read (h : s.Inv) (hp : s.pending = none) (hphase : s.phase = .prose) {n : Nat}
    (hn : 0 < n) (hne : s.window.ahead ≠ []) : (Step.go (s.read n)).Sound s := by
  have hheld : (s.read n).window.held ≠ [] := by
    show (s.window.read n).held ≠ []
    rw [Window.held_read]
    simp [Nat.ne_of_gt hn, hne]
  have hopened : (s.read n).context = .opened := context_eq_opened hp hphase (.inl hheld)
  have hlive : (s.read n).phase ≠ .done := by
    rw [show (s.read n).phase = .prose from hphase]
    decide
  refine ⟨h.read hp hphase n, hp, hlive, ⟨[], .nil, ?_, ?_, fun _ => ⟨rfl, ?_⟩⟩, fun _ => hopened⟩
  · rw [rest_eq hp, rest_eq (show (s.read n).pending = none from hp)]
    show _ = (s.window.read n).held.reverse ++ (s.window.read n).ahead
    rw [Window.held_read, Window.ahead_read]
    simp
  · rw [offset_eq hp, offset_eq (show (s.read n).pending = none from hp)]
    exact Window.start_read s.window n
  · exact context_ne_between hphase

/-- Dropping line breaks at the beginning of the rest and going outside paragraphs. -/
theorem Inv.sound_skip (h : s.Inv) (hp : s.pending = none) (hheld : s.window.held = [])
    (hcontext : s.context ≠ .opened) (n : Nat) (phase : Phase) (hphase : phase ≠ .prose)
    (hdone : phase ≠ .done) (hgap : Newlines (s.window.ahead.take n))
    (hend : phase = .finish ∨ phase = .done → s.window.ahead.drop n = []) :
    (Step.go (s.advance n phase)).Sound s := by
  have hrest := rest_eq_append hp n phase
  have hoffset := offset_advance hp n phase
  rw [hheld] at hrest hoffset
  have hbetween : (s.advance n phase).context = .between := context_eq_between hp hphase
  exact ⟨h.advance hp n phase hend, hp, hdone, ⟨_, hgap, hrest, hoffset, fun h => absurd hbetween h⟩,
    fun h => absurd h hcontext⟩

theorem Inv.sound_inline (h : s.Inv) (hp : s.pending = none) (hphase : s.phase = .prose)
    (n : Nat) (kind : Token.Kind) (phase : Phase) (hkind : kind.isInline = true)
    (hv : Lexeme kind (s.window.held.reverse ++ s.window.ahead.take n)) (hdone : phase ≠ .done)
    (hend : phase = .finish ∨ phase = .done → s.window.ahead.drop n = []) :
    (Step.emit ((s.window.read n).token kind) (s.advance n phase)).Sound s :=
  ⟨h.advance hp n phase hend, .inline kind _ (context_ne_between hphase) hkind hv (token_read hp n kind)
    (rest_eq_append hp n phase) (offset_advance hp n phase) hdone⟩

/-! ### The steps -/

/-- A run of indented lines at the beginning of what lies ahead of `s₁`, which stands behind some
line breaks of the rest of `s`. -/
theorem Inv.sound_indentedStep {s₁ : Scanner} {gap : Text} (h : s₁.Inv) (hp : s₁.pending = none)
    (hheld : s₁.window.held = []) (hahead : Markup.startsWith isIndent s₁.window.ahead = true)
    (hcontext : s.context ≠ .opened) (hgap : Newlines gap) (hrest : s.rest = gap ++ s₁.rest)
    (hoffset : s₁.offset = s.offset + Text.size gap) : s₁.indentedStep.Sound s := by
  show Step.Sound s (.emit ((s₁.window.read _).token .indented) (s₁.advance _ .block))
  generalize hn : Markup.indentedLength s₁.window.ahead = n
  have hrest₁ := rest_eq_append hp n .block
  have hoffset₁ := offset_advance hp n .block
  have htoken := token_read hp n .indented
  rw [hheld] at hrest₁ hoffset₁ htoken
  have hv : Lexeme .indented ([].reverse ++ s₁.window.ahead.take n) := by
    obtain ⟨c, t, hct, hc⟩ := Markup.exists_of_startsWith hahead
    have hpos := indentedLength_pos c t
    rw [← hct, hn] at hpos
    obtain ⟨k, rfl⟩ := Nat.exists_eq_add_one.2 hpos
    exact ⟨c, t.take k, hc, by rw [hct]; rfl⟩
  refine ⟨h.advance hp n .block (by simp), .indented gap _ hcontext hgap hv ?_ ?_ ?_
    (context_eq_between hp (by simp)) (by simp)⟩
  · rw [htoken, hoffset]
  · rw [hrest, hrest₁]
  · rw [hoffset₁, hoffset]

theorem Inv.sound_paragraph {s₁ : Scanner} {gap : Text} (h : s₁.Inv) (hp : s₁.pending = none)
    (hheld : s₁.window.held = [])
    (hahead : Markup.startsWith (!isNewline ·) s₁.window.ahead = true)
    (hcontext : s.context ≠ .opened) (hgap : Newlines gap) (hrest : s.rest = gap ++ s₁.rest)
    (hoffset : s₁.offset = s.offset + Text.size gap) :
    ({ s₁ with phase := .prose }.emit .paragraph).Sound s := by
  show Step.Sound s (.emit ((s₁.window.read 0).token .paragraph) (s₁.advance 0 .prose))
  have hrest₁ := rest_eq_append hp 0 .prose
  have hoffset₁ := offset_advance hp 0 .prose
  have htoken := token_read hp 0 .paragraph
  rw [hheld] at hrest₁ hoffset₁ htoken
  refine ⟨h.advance hp 0 .prose (by simp), .paragraph gap hcontext hgap ?_ ?_ ?_
    (context_eq_opened hp rfl (.inr hahead)) (by simp)⟩
  · rw [htoken, hoffset]
    rfl
  · rw [hrest, hrest₁]
    rfl
  · rw [hoffset₁, hoffset]
    rfl

theorem Inv.sound_blockStep (h : s.Inv) (hp : s.pending = none) (hphase : s.phase = .block) :
    s.blockStep.Sound s := by
  have hheld := h.block hphase
  have hcontext : s.context ≠ .opened := by
    rw [context_eq_between hp (by rw [hphase]; decide)]
    decide
  unfold blockStep
  extract_lets breaks t
  have hsplit : s.window.ahead = breaks ++ s.window.ahead.dropWhile isNewline :=
    List.takeWhile_append_dropWhile.symm
  have hahead : t.window.ahead = s.window.ahead.dropWhile isNewline :=
    Window.ahead_read_length hsplit
  have hgap : Newlines (s.window.ahead.take breaks.length) := by
    rw [hsplit, List.take_left]
    exact List.all_eq_true.1 List.all_takeWhile
  have ht : t.Inv := h.advance hp _ s.phase (by simp [hphase])
  have hrest := rest_eq_append hp breaks.length .prose
  have hoffset := offset_advance hp breaks.length .prose
  rw [hheld] at hrest hoffset
  split
  · next hnil =>
    exact h.sound_skip hp hheld hcontext breaks.length .finish (by decide)
      (by decide) hgap fun _ => (Window.ahead_read _ _).symm.trans hnil
  · next c rest hcons =>
    split
    · next hc =>
      exact ht.sound_indentedStep hp rfl (by rw [hcons]; exact hc) hcontext hgap hrest hoffset
    · have hnewline := List.head?_dropWhile_not isNewline s.window.ahead
      rw [← hahead, hcons] at hnewline
      refine ht.sound_paragraph hp rfl ?_ hcontext hgap hrest hoffset
      rw [hcons, Markup.startsWith_cons, hnewline]
      rfl

theorem Inv.sound_breakStep (h : s.Inv) (hp : s.pending = none) (hphase : s.phase = .prose)
    (hheld : s.window.held = []) (hahead : Markup.startsWith isNewline s.window.ahead = true) :
    s.breakStep.Sound s := by
  have hgap := Markup.newlines_take_breakLength hahead
  obtain ⟨c, rest', hcons, hc⟩ := Markup.exists_of_startsWith hahead
  have hcontext : s.context ≠ .opened := by
    rw [context_eq_within hp hphase hheld (by rw [hcons, Markup.startsWith_cons, hc]; rfl)]
    decide
  unfold breakStep
  extract_lets n rest
  split
  · next hindent =>
    have ht : (s.skip n).Inv := h.advance hp _ s.phase (by simp [hphase])
    have hrest := rest_eq_append hp n .prose
    have hoffset := offset_advance hp n .prose
    rw [hheld] at hrest hoffset
    have hahead' : (s.skip n).window.ahead = rest := Window.ahead_read _ _
    exact ht.sound_indentedStep hp rfl (by rw [hahead']; exact hindent) hcontext hgap hrest hoffset
  · split
    · next hnewline =>
      have hgap' : Newlines (s.window.ahead.take (n + Markup.breakLength rest)) := by
        rw [List.take_add]
        exact hgap.append (Markup.newlines_take_breakLength hnewline)
      exact h.sound_skip hp hheld hcontext _ .block (by decide) (by decide) hgap' (by simp)
    · exact h.sound_read hp hphase (breakLength_pos _) (by rw [hcons]; simp)

theorem Inv.sound_markerStep (h : s.Inv) (hp : s.pending = none) (hphase : s.phase = .prose)
    (hheld : s.window.held = []) {c : Char} {rest : Text} (hahead : s.window.ahead = c :: rest)
    (hspecial : isSpecial c = true) (hcolon : c ≠ ':') : (s.markerStep c).Sound s := by
  have hne : s.window.ahead ≠ [] := by rw [hahead]; exact List.cons_ne_nil c rest
  -- a token that keeps the phase, of the first `n` characters ahead
  have hinline : ∀ {n : Nat} {kind : Token.Kind}, kind.isInline = true →
      Lexeme kind (s.window.ahead.take n) → ((s.read n).emit kind).Sound s := by
    intro n kind hkind hv
    refine h.sound_inline hp hphase n kind s.phase hkind ?_ (by simp [hphase]) (by simp [hphase])
    rwa [hheld]
  unfold markerStep
  split
  · next hc =>
    subst hc
    split
    · next n hn =>
      obtain ⟨body, r, hbody, hr, rfl⟩ := Markup.exists_of_codeLength? hn
      rw [hahead, List.drop_one, List.tail_cons] at hr
      refine hinline rfl ⟨body, hbody, ?_⟩
      rw [hahead, hr, List.take_succ_cons, List.take_length_add_append]
      rfl
    · exact h.sound_read hp hphase Nat.one_pos hne
  · next hcode =>
    split
    · next hc =>
      subst hc
      split
      · next hstar =>
        rw [hahead, List.drop_one, List.tail_cons] at hstar
        obtain ⟨d, r, rfl, hd⟩ := Markup.exists_of_startsWith hstar
        refine hinline rfl ?_
        rw [hahead, beq_iff_eq.1 hd]
        exact rfl
      · refine hinline rfl ?_
        rw [hahead]
        exact rfl
    · next hstar =>
      split
      · split
        · next n hn =>
          obtain ⟨u, r, hur, rfl, hu⟩ := Url.exists_isLink_of_linkLength? hn
          refine hinline rfl ?_
          rw [hur, List.take_left]
          exact hu
        · exact h.sound_read hp hphase Nat.one_pos hne
      · next hlink =>
        refine h.sound_breakStep hp hphase hheld ?_
        rw [hahead, Markup.startsWith_cons]
        simpa [isSpecial, isMarker, isBreak, hcode, hstar, hlink, hcolon] using hspecial

/-- The parts of the window around the colon ahead, if a URL stands there. -/
theorem Inv.exists_of_url? (h : s.Inv) {rest' : Text} (hahead : s.window.ahead = ':' :: rest')
    {scheme rest : Nat} (hurl : s.url? = some (scheme, rest)) :
    ∃ text word tail after, s.window.held.reverse = text ++ word ∧ s.window.ahead = tail ++ after ∧
      Url.IsUrl (word ++ tail) ∧ scheme = word.length ∧ rest + 1 = tail.length := by
  unfold url? at hurl
  extract_lets word at hurl
  rw [h.guarded, Bool.true_and] at hurl
  split at hurl
  · cases hurl
  · next hlen =>
    split at hurl
    · next hscheme =>
      rw [Option.map_eq_some_iff] at hurl
      obtain ⟨n, hn, heq⟩ := hurl
      obtain ⟨rfl, rfl⟩ := Prod.mk.inj heq
      obtain ⟨u, after, hsplit, rfl, hu⟩ := Url.exists_isUrl_of_length? hn
      -- the word lies inside the stretch held
      have hheld : s.window.word <+: s.window.held := by
        have hword : s.window.word <+: s.window.held ++ s.window.before := List.takeWhile_prefix _
        refine List.prefix_of_prefix_length_le hword (List.prefix_append _ _) ?_
        have hlength : word.length = s.window.word.length := List.length_reverse
        simpa [hlength] using hlen
      obtain ⟨text, htext⟩ := hheld
      rw [hahead] at hsplit
      have hlt := hu.lt_length hsplit (Url.colon_not_mem_of_mem_schemes hscheme)
      -- so the URL is the word and a beginning of what lies ahead
      obtain ⟨tail, rfl⟩ : word <+: u := by
        have hword : word <+: word ++ ':' :: rest' := List.prefix_append _ _
        rw [hsplit] at hword
        exact List.prefix_of_prefix_length_le hword (List.prefix_append _ _) (Nat.le_of_lt hlt)
      rw [List.append_assoc, List.append_cancel_left_eq] at hsplit
      refine ⟨text.reverse, word, tail, after, ?_, hahead.trans hsplit, hu, rfl, ?_⟩
      · rw [← htext, List.reverse_append]
      · rw [List.length_append] at hlt ⊢
        omega
    · cases hurl

/-- A URL with nothing else in front of it makes a token. -/
theorem urlStep_of_le {scheme n : Nat} (hle : s.window.held.length ≤ scheme) :
    s.urlStep scheme n = .emit ((s.window.read (n + 1)).token .url) (s.advance (n + 1) s.phase) :=
  if_pos hle

/-- A URL with other text in front of it makes two tokens, of which the second one waits. -/
theorem urlStep_of_lt {scheme n : Nat} {tail after : Text} (hahead : s.window.ahead = tail ++ after)
    (hn : n + 1 = tail.length) (hlt : scheme < s.window.held.length) :
    s.urlStep scheme n =
      .emit (.ofText .text (s.window.held.drop scheme).reverse s.window.start.toUInt32)
        { s.advance (n + 1) s.phase with
          pending := some (.ofText .url ((s.window.held.take scheme).reverse ++ tail)
            (s.window.start + Text.size (s.window.held.drop scheme)).toUInt32) } := by
  unfold urlStep
  extract_lets t url text start first second
  rw [if_neg (Nat.not_le.2 hlt)]
  have htheld : t.window.held = tail.reverse ++ s.window.held := by
    refine (Window.held_read s.window _).trans ?_
    rw [hahead, hn, List.take_left]
  have hulength : url = tail.reverse.length + scheme := by
    rw [List.length_reverse, ← hn]
    show scheme + 1 + n = _
    omega
  have htext : text = (s.window.held.drop scheme).reverse := by
    show (t.window.held.drop url).reverse = _
    rw [htheld, hulength, List.drop_length_add_append]
  have hstart : start = s.window.start := Window.start_read _ _
  have hfirst : first = .ofText .text (s.window.held.drop scheme).reverse
      s.window.start.toUInt32 := by
    show Token.ofText _ text start.toUInt32 = _
    rw [htext, hstart]
  have hsecond : second = .ofText .url ((s.window.held.take scheme).reverse ++ tail)
      (s.window.start + Text.size (s.window.held.drop scheme)).toUInt32 := by
    show Token.ofText _ (t.window.held.take url).reverse (start + Text.size text).toUInt32 = _
    rw [htheld, hulength, List.take_length_add_append, htext, hstart, Text.size_reverse,
      List.reverse_append, List.reverse_reverse]
  rw [hfirst, hsecond]
  rfl

theorem Inv.sound_pair (h : s.Inv) (hp : s.pending = none) (hphase : s.phase = .prose) {n : Nat}
    {text url : Text} (hsplit : s.window.held.reverse ++ s.window.ahead.take n = text ++ url)
    (hne : text ≠ []) (hurl : Url.IsUrl url) {s' : Scanner}
    (hs' : s' = { s.advance n s.phase with
      pending := some (.ofText .url url (s.offset + Text.size text).toUInt32) }) :
    (Step.emit (.ofText .text text s.offset.toUInt32) s').Sound s := by
  have hphase' : s'.phase = .prose := by rw [hs']; exact hphase
  have hwaiting : s'.waiting = url := by rw [hs']; rfl
  have hstart : s'.window.start = s.offset + Text.size text + Text.size url := by
    have hstart' := offset_advance hp n s.phase
    rw [hsplit, offset_eq (show (s.advance n s.phase).pending = none from hp), Text.size_append,
      ← Nat.add_assoc] at hstart'
    rw [hs']
    exact hstart'
  have hoffset : s'.offset = s.offset + Text.size text := by
    rw [offset, hwaiting, hstart, Nat.add_sub_cancel]
  have hrest : s.rest = text ++ s'.rest := by
    have hrest' := rest_eq_append hp n s.phase
    rw [hsplit, List.append_assoc, rest_eq (show (s.advance n s.phase).pending = none from hp)] at hrest'
    rw [hrest', Scanner.rest, hwaiting, hs']
  refine ⟨⟨?_, ?_, ?_, ?_, ?_⟩, .inline .text text (context_ne_between hphase) rfl hne rfl hrest
    hoffset (by rw [hphase']; decide)⟩
  · rw [hs']
    exact ⟨(h.searches.marker.read n).release, (h.searches.brk.read n).release⟩
  · rw [hs']
    exact h.guarded
  · intro t ht
    rw [show s'.pending = _ from congrArg Scanner.pending hs'] at ht
    cases ht
    exact ⟨hphase', hurl, by rw [hoffset]; rfl, by rw [hoffset, hstart]; rfl⟩
  · rw [hphase']
    simp
  · rw [hphase']
    simp

theorem Inv.sound_urlStep (h : s.Inv) (hp : s.pending = none) (hphase : s.phase = .prose)
    {text word tail after : Text} {rest : Nat} (hheld : s.window.held.reverse = text ++ word)
    (hahead : s.window.ahead = tail ++ after) (hurl : Url.IsUrl (word ++ tail))
    (hrest : rest + 1 = tail.length) : (s.urlStep word.length rest).Sound s := by
  have htake : s.window.ahead.take (rest + 1) = tail := by rw [hahead, hrest, List.take_left]
  have hheld' : s.window.held = word.reverse ++ text.reverse := by
    rw [← List.reverse_append, ← hheld, List.reverse_reverse]
  have hlength : s.window.held.length = text.length + word.length := by
    rw [← List.length_reverse, hheld, List.length_append]
  rcases Nat.lt_or_ge word.length s.window.held.length with hlt | hle
  · have hne : text ≠ [] := by
      rintro rfl
      rw [List.length_nil] at hlength
      omega
    have htext : s.window.held.drop word.length = text.reverse := by
      rw [hheld', ← List.length_reverse, List.drop_left]
    have hword : s.window.held.take word.length = word.reverse := by
      rw [hheld', ← List.length_reverse, List.take_left]
    rw [urlStep_of_lt hahead hrest hlt, htext, hword, List.reverse_reverse, List.reverse_reverse,
      Text.size_reverse, ← offset_eq hp]
    exact h.sound_pair hp hphase (n := rest + 1) (by rw [hheld, htake, List.append_assoc]) hne hurl
      rfl
  · -- nothing is held in front of the scheme
    have htext : text = [] := List.length_eq_zero_iff.1 (by omega)
    rw [urlStep_of_le hle]
    refine h.sound_inline hp hphase (rest + 1) .url s.phase rfl ?_
      (by simp [hphase]) (by simp [hphase])
    rw [hheld, htake, htext]
    exact hurl

/-! ### Seeking -/

theorem Inv.seek (h : s.Inv) (hp : s.pending = none) (hphase : s.phase = .prose) : s.seek.Inv where
  searches := h.searches.seek
  guarded := h.guarded
  pending t ht := by rw [show s.seek.pending = none from hp] at ht; cases ht
  block hb := by rw [show s.seek.phase = .prose from hphase] at hb; cases hb
  finish hf := by rw [show s.seek.phase = .prose from hphase] at hf; simp at hf

theorem Inv.rest_seek (h : s.Inv) (hp : s.pending = none) : s.seek.rest = s.rest := by
  rw [rest_eq hp, rest_eq (show s.seek.pending = none from hp), h.searches.held_seek,
    h.searches.ahead_seek, List.reverse_append, List.reverse_reverse, List.append_assoc,
    List.takeWhile_append_dropWhile]

theorem Inv.offset_seek (h : s.Inv) (hp : s.pending = none) : s.seek.offset = s.offset := by
  rw [offset_eq hp, offset_eq (show s.seek.pending = none from hp), h.searches.window_seek]
  exact Window.start_read _ _

theorem isSpecial_of_isNewline {c : Char} (h : isNewline c = true) : isSpecial c = true := by
  simp [isSpecial, isBreak, h]

theorem isNewline_of_isSpecial_eq_false {c : Char} (h : isSpecial c = false) :
    isNewline c = false := by
  rw [← Bool.not_eq_true]
  intro hnewline
  rw [isSpecial_of_isNewline hnewline] at h
  cases h

/-- Seeking stops at a line break at once, so it does not change the context. -/
theorem Inv.context_seek (h : s.Inv) (hp : s.pending = none) (hphase : s.phase = .prose) :
    s.seek.context = s.context := by
  cases hahead : s.window.ahead with
  | nil =>
    have hwindow : s.seek.window = s.window := by rw [h.searches.window_seek, hahead]; rfl
    simp only [context, hwindow, show s.seek.pending = s.pending from rfl,
      show s.seek.phase = s.phase from rfl]
  | cons c rest =>
    by_cases hc : isSpecial c = true
    · have hwindow : s.seek.window = s.window := by
        rw [h.searches.window_seek, hahead, List.takeWhile_cons_of_neg (by simp [hc])]
        rfl
      simp only [context, hwindow, show s.seek.pending = s.pending from rfl,
        show s.seek.phase = s.phase from rfl]
    · have hnewline : isNewline c = false :=
        isNewline_of_isSpecial_eq_false (by simpa using hc)
      have hheld : s.seek.window.held ≠ [] := by
        rw [h.searches.held_seek, hahead, List.takeWhile_cons_of_pos (by simp [hc])]
        simp
      rw [context_eq_opened (s := s.seek) hp hphase (.inl hheld), context_eq_opened hp hphase]
      right
      rw [hahead, Markup.startsWith_cons, hnewline]
      rfl

/-- At the end of the text a paragraph with nothing held is over. -/
theorem Inv.sound_finish (h : s.Inv) (hp : s.pending = none) (hphase : s.phase = .prose)
    (hheld : s.window.held = []) (hahead : s.window.ahead = []) :
    (Step.go { s with phase := .finish }).Sound s := by
  have hcontext : s.context = .within :=
    context_eq_within hp hphase hheld (by rw [hahead]; rfl)
  have hbetween : { s with phase := .finish }.context = .between :=
    context_eq_between hp (by simp)
  refine ⟨⟨⟨h.searches.marker, h.searches.brk⟩, h.guarded, ?_, fun _ => hheld,
    fun _ => ⟨hheld, hahead⟩⟩, hp, by simp,
    ⟨[], .nil, rfl, rfl, fun hne => absurd hbetween hne⟩, fun ho => ?_⟩
  · intro t (ht : t ∈ s.pending)
    rw [hp] at ht
    cases ht
  · rw [hcontext] at ho
    cases ho

theorem Inv.sound_text (h : s.Inv) (hp : s.pending = none) (hphase : s.phase = .prose)
    (hheld : s.window.held ≠ []) (phase : Phase) (hdone : phase ≠ .done)
    (hend : phase = .finish ∨ phase = .done → s.window.ahead = []) :
    ({ s with phase }.emit .text).Sound s := by
  refine h.sound_inline hp hphase 0 .text phase rfl ?_ hdone hend
  show s.window.held.reverse ++ [] ≠ []
  simpa using hheld

theorem Inv.sound_proseStep (h : s.Inv) (hp : s.pending = none) (hphase : s.phase = .prose) :
    s.proseStep.Sound s := by
  refine Step.Sound.congr s.seek rfl (h.context_seek hp hphase) (h.offset_seek hp)
    (h.rest_seek hp) ?_
  have hahead := h.searches.ahead_seek
  have hinv := h.seek hp hphase
  replace hp : s.seek.pending = none := hp
  replace hphase : s.seek.phase = .prose := hphase
  unfold proseStep
  generalize s.seek = t at *
  dsimp only
  split
  · next hnil =>
    split
    · next hheld => exact hinv.sound_finish hp hphase (List.isEmpty_iff.1 hheld) hnil
    · next hheld =>
      exact hinv.sound_text hp hphase (by simpa using hheld) .finish (by decide) fun _ => hnil
  · next c rest hcons =>
    have hspecial : isSpecial c = true := isSpecial_of_dropWhile (hahead.symm.trans hcons)
    split
    · next hcolon =>
      subst hcolon
      split
      · next scheme n hsome =>
        obtain ⟨text, word, tail, after, hheld, hsplit, hurl, rfl, hn⟩ :=
          hinv.exists_of_url? hcons hsome
        exact hinv.sound_urlStep hp hphase hheld hsplit hurl hn
      · exact hinv.sound_read hp hphase Nat.one_pos (by rw [hcons]; simp)
    · next hcolon =>
      split
      · next hheld =>
        exact hinv.sound_text hp hphase (by simpa using hheld) t.phase (by simp [hphase])
          (by simp [hphase])
      · next hheld =>
        exact hinv.sound_markerStep hp hphase (by simpa using hheld) hcons hspecial hcolon

theorem Inv.sound_step (h : s.Inv) (hp : s.pending = none) : s.step.Sound s := by
  unfold step
  split
  · next hphase => exact h.sound_blockStep hp hphase
  · next hphase => exact h.sound_proseStep hp hphase
  · next hphase =>
    obtain ⟨hheld, hahead⟩ := h.finish (.inl hphase)
    have hrest : s.rest = [] := by rw [rest_eq hp, hheld, hahead]; rfl
    have hcontext : s.context = .between := context_eq_between hp (by rw [hphase]; decide)
    -- the stretch is released twice: once to reach the end, and once with the token
    have hinv := (h.advance hp 0 .done fun _ => hahead).advance hp 0 .done fun _ => hahead
    refine ⟨hinv, .finish (by rw [hcontext]; decide) (by rw [hrest]; exact .nil) ?_ rfl hp⟩
    show Token.ofText .finish [] s.window.pos.toUInt32 = _
    rw [hrest, offset_eq hp, s.window.pos_eq, hheld]
  · next hphase => exact hphase

/-! ### Pulling tokens -/

/-- A pull hands out the first token of the rest. -/
theorem Inv.emits_next? (h : s.Inv) {t : Token} {s' : Scanner} (hnext : s.next? = some (t, s')) :
    s'.Inv ∧ Emits s t s' := by
  fun_induction next? s with
  | case1 s u hpending =>
    cases hnext
    obtain ⟨hphase, hurl, hu, hoffset⟩ := h.pending t hpending
    have hwaiting : s.waiting = t.value := by rw [waiting, hpending]; rfl
    have hcontext : s.context ≠ .between := context_ne_between hphase
    refine ⟨⟨⟨h.searches.marker, h.searches.brk⟩, h.guarded, ?_, h.block, h.finish⟩,
      .inline .url t.value hcontext rfl hurl hu ?_ hoffset.symm ?_⟩
    · intro u hu
      cases hu
    · rw [rest, hwaiting]
      rfl
    · show s.phase ≠ .done
      rw [hphase]
      decide
  | case2 => cases hnext
  | case3 s hp u hstep ih =>
    have hsound := h.sound_step hp
    rw [hstep] at hsound
    obtain ⟨hinv, -, -, hslides⟩ := hsound
    obtain ⟨hinv', hemits⟩ := ih hinv hnext
    exact ⟨hinv', hemits.of_slides hslides⟩
  | case4 s hp u v hstep =>
    cases hnext
    have hsound := h.sound_step hp
    rwa [hstep] at hsound

theorem Inv.next?_eq_none_iff (h : s.Inv) :
    s.next? = none ↔ s.pending = none ∧ s.phase = .done := by
  fun_induction next? s with
  | case1 s u hpending => simp [hpending]
  | case2 s hp hstep =>
    have hdone := h.sound_step hp
    rw [hstep] at hdone
    exact ⟨fun _ => ⟨hp, hdone⟩, fun _ => rfl⟩
  | case3 s hp u hstep ih =>
    have hsound := h.sound_step hp
    rw [hstep] at hsound
    obtain ⟨hinv, -, hlive, -⟩ := hsound
    have hphase : s.phase ≠ .done := by
      intro hdone
      simp [step, hdone] at hstep
    rw [ih hinv]
    simp [hlive, hphase]
  | case4 s hp u v hstep =>
    have hphase : s.phase ≠ .done := by
      intro hdone
      simp [step, hdone] at hstep
    simp [hphase]

theorem tokens_of_next?_eq_none (h : s.next? = none) : s.tokens = [] := by
  rw [tokens]
  split
  · rfl
  · next hsome => rw [h] at hsome; cases hsome

/-- The tokens of a scanner are a stream over the rest of its text. -/
theorem Inv.stream_tokens (h : s.Inv) (hlive : s.phase ≠ .done) :
    Token.Stream s.context s.offset s.rest s.tokens := by
  fun_induction tokens s with
  | case1 s hnext => exact absurd ((h.next?_eq_none_iff).1 hnext).2 hlive
  | case2 s t s' hnext ih =>
    obtain ⟨hinv, hemits⟩ := h.emits_next? hnext
    cases hemits with
    | finish hcontext hgap ht hphase hpending =>
      rw [tokens_of_next?_eq_none (hinv.next?_eq_none_iff.2 ⟨hpending, hphase⟩), ht]
      exact .finish hcontext hgap
    | indented gap v hcontext hgap hv ht hrest hoffset hcontext' hphase =>
      have hstream := ih hinv hphase
      rw [hcontext', hoffset] at hstream
      rw [hrest, ht]
      exact .indented hcontext hgap hv hstream
    | paragraph gap hcontext hgap ht hrest hoffset hcontext' hphase =>
      have hstream := ih hinv hphase
      rw [hcontext', hoffset] at hstream
      rw [hrest, ht]
      exact .paragraph hcontext hgap hstream
    | inline kind v hcontext hkind hv ht hrest hoffset hphase =>
      have hstream := (ih hinv hphase).within
      rw [hoffset] at hstream
      rw [hrest, ht]
      exact .inline hcontext hkind hv hstream

theorem inv_ofReuse (t : Text) (reuse : Bool) :
    { ofText t with policy := { reuse } : Scanner }.Inv where
  searches := ⟨.none, .none⟩
  guarded := rfl
  pending _ h := by cases h
  block _ := rfl
  finish h := by simp [ofText] at h

theorem inv_ofText (t : Text) : (ofText t).Inv := inv_ofReuse t true

end Scanner

theorem Token.stream_scan (t : Text) : Token.Stream .between 0 t (Token.scan t) :=
  (Scanner.inv_ofText t).stream_tokens (by simp [Scanner.ofText])

end DocComment
