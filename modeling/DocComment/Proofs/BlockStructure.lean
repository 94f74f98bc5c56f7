import DocComment.Proofs.Layout

/-!
# A scanner yields the tokens of the blocks

`Scanner.reading` says which tokens are still to come from a scanner, by `Block.layout` on what lies
ahead of it. Every step hands out the first of them or leaves them as they are
(`Scanner.Inv.keeps_step`), so the tokens of a text are those of its blocks.

A word in front of a paragraph would keep a URL at its beginning from being seen. `Scanner.Fresh`
says that there is none: between blocks the last character read ends a line.
-/

namespace DocComment

theorem Window.pos_read (w : Window) (n : Nat) :
    (w.read n).pos = w.pos + Text.size (w.ahead.take n) := by
  rw [(w.read n).pos_eq, start_read, held_read, w.pos_eq, Text.size_append, Text.size_reverse,
    Nat.add_assoc, Nat.add_comm (Text.size w.held)]

namespace Markup

theorem startsWith_append (p : Char → Bool) {t : Text} (h : t ≠ []) (u : Text) :
    startsWith p (t ++ u) = startsWith p t := by
  cases t with
  | nil => contradiction
  | cons c t => rfl

theorem ne_nil_of_startsWith {p : Char → Bool} {t : Text} (h : startsWith p t = true) : t ≠ [] := by
  rintro rfl
  cases h

theorem startsWith_isWord_eq_false {t : Text} (h : startsWith isNewline t = true) :
    startsWith isWord t = false := by
  obtain ⟨c, u, rfl, hc⟩ := exists_of_startsWith h
  rcases Url.eq_of_isNewline hc with rfl | rfl <;> rfl

/-- Behind a line break no word stands, whatever comes before. -/
theorem startsWith_isWord_append {t : Text} (h : startsWith isNewline t = true) (u : Text) :
    startsWith isWord (t ++ u) = false := by
  rw [startsWith_append _ (ne_nil_of_startsWith h)]
  exact startsWith_isWord_eq_false h

theorem startsWith_reverse_newlines {gap : Text} (hne : gap ≠ []) (h : Newlines gap) :
    startsWith isNewline gap.reverse = true := by
  cases hrev : gap.reverse with
  | nil => exact absurd (List.reverse_eq_nil_iff.1 hrev) hne
  | cons c t => exact h c (List.mem_reverse.1 (by rw [hrev]; exact List.mem_cons_self))

theorem take_breakLength_ne_nil {t : Text} (h : startsWith isNewline t = true) :
    t.take (breakLength t) ≠ [] := by
  have hpos := Scanner.breakLength_pos t
  simp [ne_nil_of_startsWith h, Nat.ne_of_gt hpos]

/-- A line break ends with a line break character. -/
theorem startsWith_reverse_break {t : Text} (h : startsWith isNewline t = true) :
    startsWith isNewline (t.take (breakLength t)).reverse = true :=
  startsWith_reverse_newlines (take_breakLength_ne_nil h) (newlines_take_breakLength h)

theorem startsWith_isBlank (t : Text) :
    startsWith isBlank t = (startsWith isIndent t || startsWith isNewline t) := by
  cases t <;> rfl

/-- A run of indented lines ends with the text or with a line break. -/
theorem indentedLength_cases (t : Text) :
    t.drop (indentedLength t) = [] ∨
      startsWith isNewline (t.take (indentedLength t)).reverse = true := by
  induction t using break_induction with
  | nil => exact .inl rfl
  | brk t h ih =>
    rw [indentedLength_break h]
    split
    · rw [Nat.add_comm, List.take_add, ← List.drop_drop, List.reverse_append]
      refine ih.imp id fun hlast => ?_
      rwa [startsWith_append _ (ne_nil_of_startsWith hlast)]
    · exact .inr (startsWith_reverse_break h)
  | char c t h ih =>
    rw [indentedLength_char h, List.take_succ_cons, List.drop_succ_cons, List.reverse_cons]
    refine ih.imp id fun hlast => ?_
    rwa [startsWith_append _ (ne_nil_of_startsWith hlast)]

end Markup

namespace Scanner
open Markup (startsWith breakLength indentedLength)
open Block (layout layoutProse)

/-- The tokens to come. -/
def reading (s : Scanner) : List Token :=
  s.pending.toList ++
    match s.phase with
    | .block => layout s.window.pos s.window.ahead
    | .prose =>
      layoutProse (startsWith isWord s.window.before) s.window.held s.window.start s.window.ahead
    | .finish => [.ofText .finish [] s.window.pos.toUInt32]
    | .done => []

/-- Between blocks no word stands in front of what lies ahead. -/
def Fresh (s : Scanner) : Prop :=
  s.phase = .block → s.window.ahead = [] ∨ startsWith isWord s.window.before = false

def Step.Keeps (s : Scanner) : Step → Prop
  | .stop => s.reading = []
  | .go s' => s'.Fresh ∧ s.reading = s'.reading
  | .emit t s' => s'.Fresh ∧ s.reading = t :: s'.reading

variable {s : Scanner}

theorem fresh_of_phase (h : s.phase ≠ .block) : s.Fresh := fun hblock => absurd hblock h

theorem Step.Keeps.congr {r : Step} (s' : Scanner) (h : s'.reading = s.reading) (hr : r.Keeps s') :
    r.Keeps s := by
  cases r with
  | stop => exact h.symm.trans hr
  | go u => exact ⟨hr.1, h.symm.trans hr.2⟩
  | emit t u => exact ⟨hr.1, h.symm.trans hr.2⟩

theorem reading_block (hp : s.pending = none) (hphase : s.phase = .block) :
    s.reading = layout s.window.pos s.window.ahead := by
  rw [reading, hp, hphase]
  rfl

theorem reading_prose (hp : s.pending = none) (hphase : s.phase = .prose) :
    s.reading = layoutProse (startsWith isWord s.window.before) s.window.held s.window.start
      s.window.ahead := by
  rw [reading, hp, hphase]
  rfl

theorem reading_finish (hp : s.pending = none) (hphase : s.phase = .finish) :
    s.reading = [.ofText .finish [] s.window.pos.toUInt32] := by
  rw [reading, hp, hphase]
  rfl

/-! ### The moves -/

theorem reading_read (hp : s.pending = none) (hphase : s.phase = .prose) (n : Nat) :
    (s.read n).reading = layoutProse (startsWith isWord s.window.before)
      ((s.window.ahead.take n).reverse ++ s.window.held) s.window.start (s.window.ahead.drop n) := by
  rw [reading_prose (s := s.read n) hp hphase, ← Window.before_read s.window n,
    ← Window.held_read s.window n, ← Window.start_read s.window n, ← Window.ahead_read s.window n]
  rfl

theorem keeps_read (hp : s.pending = none) (hphase : s.phase = .prose) (n : Nat)
    (h : layoutProse (startsWith isWord s.window.before) s.window.held s.window.start
        s.window.ahead =
      layoutProse (startsWith isWord s.window.before)
        ((s.window.ahead.take n).reverse ++ s.window.held) s.window.start
        (s.window.ahead.drop n)) : (Step.go (s.read n)).Keeps s := by
  refine ⟨fresh_of_phase (by simp [read, hphase]), ?_⟩
  rw [reading_prose hp hphase, reading_read hp hphase, h]

theorem pos_advance (s : Scanner) (n : Nat) (phase : Phase) :
    (s.advance n phase).window.pos = s.window.pos + Text.size (s.window.ahead.take n) :=
  Window.pos_read s.window n

theorem ahead_advance (s : Scanner) (n : Nat) (phase : Phase) :
    (s.advance n phase).window.ahead = s.window.ahead.drop n :=
  Window.ahead_read s.window n

theorem before_advance (s : Scanner) (n : Nat) (phase : Phase) :
    (s.advance n phase).window.before =
      (s.window.ahead.take n).reverse ++ s.window.held ++ s.window.before := by
  rw [← Window.held_read, ← Window.before_read s.window n]
  rfl

theorem reading_advance_prose (hp : s.pending = none) {n : Nat}
    (hne : (s.window.ahead.take n).reverse ++ s.window.held ≠ []) :
    (s.advance n .prose).reading =
      layoutProse (startsWith isWord ((s.window.ahead.take n).reverse ++ s.window.held)) []
        (s.window.pos + Text.size (s.window.ahead.take n)) (s.window.ahead.drop n) := by
  rw [reading_prose (s := s.advance n .prose) hp rfl, before_advance,
    Markup.startsWith_append _ hne, ahead_advance, ← pos_advance s n .prose]
  rfl

/-- Behind a line break no word stands. -/
theorem fresh_advance {n : Nat} {phase : Phase}
    (h : s.window.ahead.drop n = [] ∨
      startsWith isNewline (s.window.ahead.take n).reverse = true) : (s.advance n phase).Fresh := by
  intro _
  rw [ahead_advance, before_advance, List.append_assoc]
  exact h.imp id fun hlast => Markup.startsWith_isWord_append hlast _

theorem start_eq_pos (hheld : s.window.held = []) : s.window.start = s.window.pos := by
  rw [s.window.pos_eq, hheld]
  rfl

/-! ### The steps -/

theorem keeps_indentedStep {s₁ : Scanner} (hp : s₁.pending = none) (hheld : s₁.window.held = [])
    (hahead : startsWith isIndent s₁.window.ahead = true)
    (h : s.reading = layout s₁.window.pos s₁.window.ahead) : s₁.indentedStep.Keeps s := by
  show Step.Keeps s (.emit ((s₁.window.read _).token .indented) (s₁.advance _ .block))
  refine ⟨fresh_advance (Markup.indentedLength_cases _), ?_⟩
  rw [h, Block.layout_indented _ hahead, reading_block (s := s₁.advance _ .block) hp rfl,
    pos_advance, ahead_advance, token_read hp, hheld, offset_eq hp, start_eq_pos hheld]
  rfl

theorem Inv.keeps_blockStep (h : s.Inv) (hf : s.Fresh) (hp : s.pending = none)
    (hphase : s.phase = .block) : s.blockStep.Keeps s := by
  have hheld := h.block hphase
  unfold blockStep
  extract_lets breaks t
  have hsplit : s.window.ahead = breaks ++ s.window.ahead.dropWhile isNewline :=
    List.takeWhile_append_dropWhile.symm
  have hahead : t.window.ahead = s.window.ahead.dropWhile isNewline :=
    Window.ahead_read_length hsplit
  have hgap : Newlines breaks := List.all_eq_true.1 List.all_takeWhile
  have hpos : t.window.pos = s.window.pos + Text.size breaks := by
    refine (pos_advance s breaks.length s.phase).trans ?_
    rw [hsplit, List.take_left]
  have hreading : s.reading = layout t.window.pos t.window.ahead := by
    rw [reading_block hp hphase, hsplit, Block.layout_newlines _ hgap, hpos, hahead]
  split
  · next hnil =>
    refine ⟨fresh_of_phase (by simp), ?_⟩
    rw [hreading, hnil, Block.layout_nil]
    exact (reading_finish (s := { t with phase := .finish }) hp rfl).symm
  · next c rest hcons =>
    split
    · next hc => exact keeps_indentedStep hp rfl (by rw [hcons]; exact hc) hreading
    · next hc =>
      have hprose : startsWith (!isBlank ·) t.window.ahead = true := by
        have hnewline := List.head?_dropWhile_not isNewline s.window.ahead
        rw [← hahead, hcons] at hnewline
        have hnewline : isNewline c = false := by simpa using hnewline
        rw [hcons, Markup.startsWith_cons]
        simp [isBlank, hc, hnewline]
      have hbefore : startsWith isWord t.window.before = false := by
        rw [show t.window.before = _ from before_advance s breaks.length s.phase, hsplit,
          List.take_left, hheld, List.append_nil]
        by_cases hbreaks : breaks = []
        · rw [hbreaks]
          refine (hf hphase).resolve_left fun hnil => ?_
          rw [hnil] at hahead
          rw [hahead] at hcons
          cases hcons
        · exact Markup.startsWith_isWord_append
            (Markup.startsWith_reverse_newlines hbreaks hgap) _
      refine ⟨fresh_of_phase (by simp), ?_⟩
      rw [hreading, Block.layout_paragraph _ hprose, ← hbefore]
      exact congrArg _ (reading_prose (s := t.advance 0 .prose) hp rfl).symm

theorem keeps_breakStep (hp : s.pending = none) (hphase : s.phase = .prose)
    (hheld : s.window.held = []) (hahead : startsWith isNewline s.window.ahead = true) :
    s.breakStep.Keeps s := by
  unfold breakStep
  extract_lets n rest
  have hend : startsWith isBlank rest = true →
      s.reading = layout (s.window.pos + Text.size (s.window.ahead.take n)) rest := by
    intro hblank
    rw [reading_prose hp hphase, hheld, Block.layoutProse_end _ hahead hblank, start_eq_pos hheld,
      Block.layout_break _ hahead]
  split
  · next hindent =>
    have hrest : (s.skip n).window.ahead = rest := Window.ahead_read _ _
    have hahead' : startsWith isIndent (s.skip n).window.ahead = true := by rwa [hrest]
    refine keeps_indentedStep hp rfl hahead' ?_
    rw [hend (by rw [Markup.startsWith_isBlank, hindent, Bool.true_or]), hrest]
    exact congrArg (layout · rest) (pos_advance s n s.phase).symm
  · split
    · next hnewline =>
      refine ⟨fresh_advance (.inr ?_), ?_⟩
      · have hlast := Markup.startsWith_reverse_break hnewline
        rw [List.take_add, List.reverse_append,
          Markup.startsWith_append _ (Markup.ne_nil_of_startsWith hlast)]
        exact hlast
      · rw [hend (by rw [Markup.startsWith_isBlank, hnewline, Bool.or_true])]
        refine Eq.trans ?_
          (reading_block (s := s.advance (n + breakLength rest) .block) hp rfl).symm
        rw [pos_advance, ahead_advance, List.take_add, ← List.drop_drop, Text.size_append,
          ← Nat.add_assoc]
        exact Block.layout_break _ hnewline
    · next hindent hnewline =>
      have hblank : startsWith isBlank rest = false := by
        rw [Markup.startsWith_isBlank]
        simp [hindent, hnewline]
      refine keeps_read hp hphase n ?_
      rw [hheld, Block.layoutProse_break _ hahead hblank, List.append_nil]

/-- A marker makes a token if it opens one, and is read as plain text if not. -/
theorem markerStep_eq {c : Char} {t : Text} (hahead : s.window.ahead = c :: t)
    (hmarker : isMarker c = true) :
    s.markerStep c =
      match Prose.opened? c t with
      | some (kind, n) => (s.read (n + 1)).emit kind
      | none => .go (s.read 1) := by
  simp only [isMarker, Bool.or_eq_true, beq_iff_eq] at hmarker
  unfold markerStep
  rw [hahead, List.drop_one, List.tail_cons]
  rcases hmarker with (rfl | rfl) | rfl
  · cases hstar : startsWith (· == '*') t <;> simp [Prose.opened?, hstar]
  · rw [Prose.opened?, if_pos rfl, if_pos rfl]
    cases Markup.codeLength? t <;> rfl
  · rw [Prose.opened?, if_neg (by decide), if_neg (by decide), if_pos rfl, if_neg (by decide),
      if_neg (by decide), if_pos rfl]
    cases hlink : Url.linkLength? ('[' :: t) with
    | none => rfl
    | some n =>
      have hn : n ≠ 0 := by
        rintro rfl
        exact Url.linkLength?_ne_zero _ hlink
      have hn : n - 1 + 1 = n := by omega
      simp only [Option.map_some, hn]

/-- What is special and neither a marker nor a colon is a line break. -/
theorem markerStep_eq_breakStep {c : Char} (hmarker : isMarker c = false)
    (hspecial : isSpecial c = true) (hcolon : c ≠ ':') :
    isNewline c = true ∧ s.markerStep c = s.breakStep := by
  have hnewline : isNewline c = true := by
    simpa [isSpecial, isBreak, hmarker, hcolon] using hspecial
  refine ⟨hnewline, ?_⟩
  rcases Url.eq_of_isNewline hnewline with rfl | rfl <;> rfl

theorem keeps_markerStep (hp : s.pending = none) (hphase : s.phase = .prose)
    (hheld : s.window.held = []) {c : Char} {t : Text} (hahead : s.window.ahead = c :: t)
    (hspecial : isSpecial c = true) (hcolon : c ≠ ':') : (s.markerStep c).Keeps s := by
  cases hmarker : isMarker c with
  | true =>
    rw [markerStep_eq hahead hmarker]
    cases hopened : Prose.opened? c t with
    | none =>
      refine keeps_read hp hphase 1 ?_
      rw [hheld, hahead, Block.layoutProse_unopened _ hmarker hopened]
      rfl
    | some l =>
      obtain ⟨kind, n⟩ := l
      obtain ⟨v, w, rfl, rfl, hprose, hafter⟩ := Prose.exists_of_opened? hopened
      have htake : s.window.ahead.take (v.length + 1) = c :: v := by
        rw [hahead, List.take_succ_cons, List.take_left]
      have hdrop : s.window.ahead.drop (v.length + 1) = w := by
        rw [hahead, List.drop_succ_cons, List.drop_left]
      show Step.Keeps s (.emit ((s.window.read _).token kind) (s.advance _ s.phase))
      refine ⟨fresh_of_phase (by simp [hphase]), ?_⟩
      rw [reading_prose hp hphase, hheld, hahead, Block.layoutProse_opened _ hopened hprose hafter,
        token_read hp, offset_eq hp, hphase, reading_advance_prose hp, htake, hdrop, hheld,
        start_eq_pos hheld, List.append_nil]
      · rfl
      · simp [htake]
  | false =>
    obtain ⟨hnewline, hbreak⟩ := markerStep_eq_breakStep hmarker hspecial hcolon
    rw [hbreak]
    exact keeps_breakStep hp hphase hheld (by rw [hahead]; exact hnewline)

/-! ### URLs -/

theorem Inv.url?_eq (h : s.Inv) :
    s.url? = Prose.url? (startsWith isWord s.window.before) s.window.held s.window.ahead := by
  unfold url? Prose.url? Window.word
  rw [h.guarded, List.takeWhile_append]
  cases hall : s.window.held.all isWord with
  | true =>
    have htake : s.window.held.takeWhile isWord = s.window.held :=
      List.takeWhile_eq_self_iff.2 (List.all_eq_true.1 hall)
    rw [htake, if_pos rfl]
    cases hbefore : s.window.before with
    | nil => simp [startsWith]
    | cons c before =>
      cases hc : isWord c with
      | true =>
        have hlt : ¬ (before.takeWhile isWord).length + (s.window.held.length + 1) ≤
            s.window.held.length := by omega
        simp [Markup.startsWith_cons, hc, hlt]
      | false => simp [Markup.startsWith_cons, hc]
  | false =>
    have hlength : (s.window.held.takeWhile isWord).length ≤ s.window.held.length :=
      (List.takeWhile_prefix isWord).length_le
    have hne : (s.window.held.takeWhile isWord).length ≠ s.window.held.length := by
      intro heq
      have hself := List.IsPrefix.eq_of_length (List.takeWhile_prefix isWord) heq
      rw [List.all_eq_true.2 (List.takeWhile_eq_self_iff.1 hself)] at hall
      cases hall
    rw [if_neg hne]
    simp [Nat.not_lt.2 hlength]

theorem reading_pending (hp : s.pending = none) (t : Token) :
    { s with pending := some t }.reading = t :: s.reading := by
  simp [reading, hp]

theorem keeps_urlStep (hp : s.pending = none) (hphase : s.phase = .prose) {scheme : Nat}
    {v w : Text} (hahead : s.window.ahead = ':' :: (v ++ w))
    (hurl : Prose.url? (startsWith isWord s.window.before) s.window.held (':' :: (v ++ w)) =
      some (scheme, v.length))
    (hprose : Markup.prose (v ++ w) = v ++ Markup.prose w)
    (hafter : Markup.afterProse (v ++ w) = Markup.afterProse w) :
    (s.urlStep scheme v.length).Keeps s := by
  have htake : s.window.ahead.take (v.length + 1) = ':' :: v := by
    rw [hahead, List.take_succ_cons, List.take_left]
  have hdrop : s.window.ahead.drop (v.length + 1) = w := by
    rw [hahead, List.drop_succ_cons, List.drop_left]
  have hrest : (s.advance (v.length + 1) .prose).reading =
      layoutProse (Prose.endsInWord (':' :: v)) []
        (s.window.start + Text.size s.window.held + Text.size (':' :: v)) w := by
    rw [reading_advance_prose hp (by simp [htake]), htake, hdrop, s.window.pos_eq,
      Markup.startsWith_append _ (by simp)]
    rfl
  rcases Nat.lt_or_ge scheme s.window.held.length with hlt | hle
  · have hne : s.window.held.drop scheme ≠ [] := by
      rw [ne_eq, List.drop_eq_nil_iff]
      exact Nat.not_le.2 hlt
    rw [urlStep_of_lt (show s.window.ahead = (':' :: v) ++ w from hahead) rfl hlt]
    refine ⟨fresh_of_phase (by simp [hphase]), ?_⟩
    rw [reading_pending (s := s.advance (v.length + 1) s.phase) hp, reading_prose hp hphase, hahead,
      Block.layoutProse_url _ hurl hprose hafter, hphase, hrest, Prose.flush_of_ne_nil hne]
    rfl
  · rw [urlStep_of_le hle]
    refine ⟨fresh_of_phase (by simp [hphase]), ?_⟩
    rw [reading_prose hp hphase, hahead, Block.layoutProse_url _ hurl hprose hafter, hphase, hrest,
      List.drop_eq_nil_of_le hle, List.take_of_length_le hle, token_read hp, htake, offset_eq hp]
    rfl

/-! ### Whole runs -/

theorem Inv.reading_seek (h : s.Inv) (hp : s.pending = none) (hphase : s.phase = .prose) :
    s.seek.reading = s.reading := by
  have hsplit := List.takeWhile_append_dropWhile (p := fun c => !isSpecial c) (l := s.window.ahead)
  have hplain : ∀ c ∈ s.window.ahead.takeWhile (fun c => !isSpecial c), isSpecial c = false := by
    intro c hc
    simpa using List.mem_takeWhile_imp hc
  rw [reading_prose hp hphase, reading_prose (s := s.seek) hp hphase, h.searches.held_seek,
    h.searches.ahead_seek, h.searches.window_seek, Window.before_read, Window.start_read,
    ← Block.layoutProse_plain _ hplain, hsplit]

theorem Inv.keeps_proseStep (h : s.Inv) (hp : s.pending = none) (hphase : s.phase = .prose) :
    s.proseStep.Keeps s := by
  refine Step.Keeps.congr s.seek (h.reading_seek hp hphase) ?_
  have hahead := h.searches.ahead_seek
  have hinv := h.seek hp hphase
  replace hp : s.seek.pending = none := hp
  replace hphase : s.seek.phase = .prose := hphase
  unfold proseStep
  generalize s.seek = t at *
  dsimp only
  split
  · next hnil =>
    split
    · next hheld =>
      refine ⟨fresh_of_phase (by simp), ?_⟩
      rw [reading_prose hp hphase, hnil, Block.layoutProse_nil,
        reading_finish (s := { t with phase := .finish }) hp rfl, t.window.pos_eq,
        List.isEmpty_iff.1 hheld]
      rfl
    · next hheld =>
      show Step.Keeps t (.emit ((t.window.read 0).token .text) (t.advance 0 .finish))
      refine ⟨fresh_of_phase (by simp), ?_⟩
      rw [reading_prose hp hphase, hnil, Block.layoutProse_nil,
        Prose.flush_of_ne_nil (by simpa using hheld),
        reading_finish (s := t.advance 0 .finish) hp rfl, pos_advance, t.window.pos_eq,
        token_read hp, offset_eq hp]
      simp
  · next c rest hcons =>
    have hspecial : isSpecial c = true := isSpecial_of_dropWhile (hahead.symm.trans hcons)
    split
    · next hcolon =>
      subst hcolon
      have hurl := hinv.url?_eq
      rw [hcons] at hurl
      split
      · next scheme n hsome =>
        rw [hurl] at hsome
        obtain ⟨v, w, rfl, rfl, hprose, hafter⟩ := Prose.exists_of_url? hsome
        exact keeps_urlStep hp hphase hcons hsome hprose hafter
      · next hnone =>
        rw [hurl] at hnone
        refine keeps_read hp hphase 1 ?_
        rw [hcons, Block.layoutProse_colon _ hnone]
        rfl
    · next hcolon =>
      split
      · next hheld =>
        have hheld : t.window.held ≠ [] := by simpa using hheld
        show Step.Keeps t (.emit ((t.window.read 0).token .text) (t.advance 0 t.phase))
        refine ⟨fresh_of_phase (by simp [hphase]), ?_⟩
        rw [reading_prose hp hphase, hcons, Block.layoutProse_held _ hspecial hcolon hheld, hphase,
          reading_advance_prose hp (by simpa using hheld), token_read hp, offset_eq hp,
          t.window.pos_eq, hcons]
        simp
      · next hheld =>
        exact keeps_markerStep hp hphase (by simpa using hheld) hcons hspecial hcolon

theorem Inv.keeps_step (h : s.Inv) (hf : s.Fresh) (hp : s.pending = none) : s.step.Keeps s := by
  unfold step
  split
  · next hphase => exact h.keeps_blockStep hf hp hphase
  · next hphase => exact h.keeps_proseStep hp hphase
  · next hphase =>
    refine ⟨fresh_of_phase (by simp), ?_⟩
    rw [reading_finish hp hphase]
    simp [reading, hp, Window.token, Window.release]
  · next hphase =>
    show s.reading = []
    simp [reading, hp, hphase]

/-- A pull hands out the first token to come. -/
theorem Inv.reading_next? (h : s.Inv) (hf : s.Fresh) {t : Token} {s' : Scanner}
    (hnext : s.next? = some (t, s')) : s'.Fresh ∧ s.reading = t :: s'.reading := by
  fun_induction next? s with
  | case1 s u hpending =>
    cases hnext
    refine ⟨hf, ?_⟩
    simp [reading, hpending]
  | case2 => cases hnext
  | case3 s hp u hstep ih =>
    have hkeeps := h.keeps_step hf hp
    have hsound := h.sound_step hp
    rw [hstep] at hkeeps hsound
    rw [hkeeps.2]
    exact ih hsound.1 hkeeps.1 hnext
  | case4 s hp u v hstep =>
    have hkeeps := h.keeps_step hf hp
    rw [hstep] at hkeeps
    cases hnext
    exact hkeeps

theorem Inv.tokens_eq_reading (h : s.Inv) (hf : s.Fresh) : s.tokens = s.reading := by
  fun_induction tokens s with
  | case1 s hnext =>
    obtain ⟨hp, hphase⟩ := h.next?_eq_none_iff.1 hnext
    simp [reading, hp, hphase]
  | case2 s t s' hnext ih =>
    obtain ⟨hf', hreading⟩ := h.reading_next? hf hnext
    rw [hreading, ih (h.emits_next? hnext).1 hf']

end Scanner

namespace Token

theorem scan_eq_layout (text : Text) : scan text = Block.layout 0 text :=
  ((Scanner.inv_ofText text).tokens_eq_reading fun _ => .inr rfl).trans
    (Scanner.reading_block rfl rfl)

/-- Whether tokens of this kind begin a block. -/
def Kind.isBlock : Kind → Bool
  | paragraph | indented => true
  | text | star | doubleStar | code | url | link | finish => false

theorem Kind.isBlock_eq_false {kind : Kind} (h : kind.isInline = true) : kind.isBlock = false := by
  cases kind <;> first | rfl | cases h

end Token

namespace Block

theorem isBlock_token (b : Block) : b.token.kind.isBlock = true := by
  unfold token
  split <;> rfl

theorem isInline_inlineTokens (b : Block) : ∀ t ∈ b.inlineTokens, t.kind.isInline = true := by
  intro t ht
  unfold inlineTokens at ht
  split at ht
  · exact Prose.isInline_lexemes _ _ _ _ (Token.mem_of_mem_place ht)
  · cases ht

theorem filter_isBlock_tokens (b : Block) :
    (b.token :: b.inlineTokens).filter (·.kind.isBlock) = [b.token] := by
  have hinline : b.inlineTokens.filter (·.kind.isBlock) = [] := by
    refine List.filter_eq_nil_iff.2 fun t ht => ?_
    simp [Token.Kind.isBlock_eq_false (b.isInline_inlineTokens t ht)]
  rw [List.filter_cons, if_pos b.isBlock_token, hinline]

theorem run_inlineTokens {b : Block} (hb : b.kind = .paragraph)
    (h : ∀ t ∈ b.inlineTokens, Token.Lexeme t.kind t.value) :
    Token.Run b.start b.text b.inlineTokens := by
  have hinline := b.isInline_inlineTokens
  simp only [inlineTokens, hb] at h hinline ⊢
  have hrun := Token.run_place hinline h
  rwa [Prose.flatMap_lexemes] at hrun

end Block

/-- The blocks of a text are those of its lines: the tokens that begin blocks are theirs, at their
offsets, and in a paragraph the inline tokens cover its text. -/
theorem Token.blocks_scan (text : Text) :
    (scan text).filter (·.kind.isBlock) = (Block.ofText text).map Block.token ∧
      scan text = (Block.ofText text).flatMap (fun b => b.token :: b.inlineTokens) ++
        [.ofText .finish [] (Text.size text).toUInt32] ∧
      (∀ b ∈ Block.ofText text, b.kind = .paragraph → Run b.start b.text b.inlineTokens) ∧
      ∀ b ∈ Block.ofText text, b.kind = .indented → b.inlineTokens = [] := by
  have hscan := scan_eq_layout text
  rw [Block.layout, Nat.zero_add] at hscan
  refine ⟨?_, hscan, fun b hb hkind => ?_, fun b hb hkind => by rw [Block.inlineTokens, hkind]⟩
  · rw [hscan, List.filter_append, List.filter_flatMap]
    simp only [Block.filter_isBlock_tokens, ← List.map_eq_flatMap]
    exact List.append_nil _
  · refine Block.run_inlineTokens hkind fun t ht => ?_
    refine ((stream_scan text).standsAt (.self text) ?_).1
    rw [hscan]
    exact List.mem_append_left _ (List.mem_flatMap.2 ⟨b, hb, List.mem_cons_of_mem _ ht⟩)

end DocComment
