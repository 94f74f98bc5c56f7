import DocComment.Proofs.Search
import DocComment.Proofs.Stream
import DocComment.Scanner.Stream

/-!
# What the steps of a scanner do to the text

A scanner stands in front of a rest of its text (`rest`), at an offset and in a context; a token
that waits counts as not yet read. A step without a token drops line breaks at most (`Slides`), and
a token takes its lexeme off the rest (`Emits`). `Inv` holds what the steps rely on: searches that
can be used again, and what is held in each phase. `Inv.sound_step` says that every step is of one
of the two forms and keeps `Inv`, and `Inv.stream_tokens` that the tokens are a stream over the
rest.
-/

namespace DocComment.Scanner
open Token (Context Lexeme Stream)

/-- The text of the token that has been read and not been handed out. -/
def waiting (s : Scanner) : Text := (s.pending.map (·.value)).getD []

def rest (s : Scanner) : Text := s.waiting ++ (s.window.held.reverse ++ s.window.ahead)

def offset (s : Scanner) : Nat := s.window.start - Text.size s.waiting

/-- In a paragraph an inline token must come next, unless the rest is empty or begins with a line
break. -/
def context (s : Scanner) : Context :=
  if s.pending.isSome then .within
  else
    match s.phase with
    | .prose =>
      if !s.window.held.isEmpty || Markup.startsWith (!isNewline ·) s.window.ahead then .opened
      else .within
    | _ => .between

structure Inv (s : Scanner) : Prop where
  searches : s.Searches
  guarded : s.policy.guarded = true
  /-- Only a URL ever waits, and it is what stands in front of the window. -/
  pending : ∀ t ∈ s.pending, s.phase = .prose ∧ Url.IsUrl t.value ∧
    t = Token.ofText .url t.value s.offset.toUInt32 ∧
      s.offset + Text.size t.value = s.window.start
  block : s.phase = .block → s.window.held = []
  finish : s.phase = .finish ∨ s.phase = .done → s.window.held = [] ∧ s.window.ahead = []

/-- The scanner `s'` stands behind some line breaks of the rest of `s`, and behind nothing if it
stands in a paragraph. -/
structure Slides (s s' : Scanner) : Prop where
  text : ∃ gap, Newlines gap ∧ s.rest = gap ++ s'.rest ∧ s'.offset = s.offset + Text.size gap ∧
    (s'.context ≠ .between → gap = [] ∧ s.context ≠ .between)
  opened : s.context = .opened → s'.context = .opened

/-- The scanner `s'` stands behind the token `t`, which is the first of the rest of `s`. -/
inductive Emits (s : Scanner) (t : Token) (s' : Scanner) : Prop
  | finish (hcontext : s.context ≠ .opened) (hgap : Newlines s.rest)
      (ht : t = .ofText .finish [] (s.offset + Text.size s.rest).toUInt32)
      (hphase : s'.phase = .done) (hpending : s'.pending = none)
  | indented (gap v : Text) (hcontext : s.context ≠ .opened) (hgap : Newlines gap)
      (hv : Lexeme .indented v)
      (ht : t = .ofText .indented v (s.offset + Text.size gap).toUInt32)
      (hrest : s.rest = gap ++ (v ++ s'.rest))
      (hoffset : s'.offset = s.offset + Text.size gap + Text.size v)
      (hcontext' : s'.context = .between) (hphase : s'.phase ≠ .done)
  | paragraph (gap : Text) (hcontext : s.context ≠ .opened) (hgap : Newlines gap)
      (ht : t = .ofText .paragraph [] (s.offset + Text.size gap).toUInt32)
      (hrest : s.rest = gap ++ s'.rest) (hoffset : s'.offset = s.offset + Text.size gap)
      (hcontext' : s'.context = .opened) (hphase : s'.phase ≠ .done)
  | inline (kind : Token.Kind) (v : Text) (hcontext : s.context ≠ .between)
      (hkind : kind.isInline = true) (hv : Lexeme kind v)
      (ht : t = .ofText kind v s.offset.toUInt32) (hrest : s.rest = v ++ s'.rest)
      (hoffset : s'.offset = s.offset + Text.size v) (hphase : s'.phase ≠ .done)

def Step.Sound (s : Scanner) : Step → Prop
  | .stop => s.phase = .done
  | .go s' => s'.Inv ∧ s'.pending = none ∧ s'.phase ≠ .done ∧ Slides s s'
  | .emit t s' => s'.Inv ∧ Emits s t s'

variable {s s' s'' : Scanner}

/-! ### With nothing waiting -/

theorem rest_eq (hp : s.pending = none) : s.rest = s.window.held.reverse ++ s.window.ahead := by
  simp [rest, waiting, hp]

theorem offset_eq (hp : s.pending = none) : s.offset = s.window.start := by
  simp [offset, waiting, hp]

theorem context_eq_between (hp : s.pending = none) (h : s.phase ≠ .prose) :
    s.context = .between := by
  unfold context
  rw [hp]
  split
  · contradiction
  · split
    · next hprose => exact absurd hprose h
    · rfl

theorem context_ne_between (h : s.phase = .prose) : s.context ≠ .between := by
  unfold context
  rw [h]
  split
  · decide
  · dsimp only
    split <;> decide

theorem context_eq_opened (hp : s.pending = none) (hphase : s.phase = .prose)
    (h : s.window.held ≠ [] ∨ Markup.startsWith (!isNewline ·) s.window.ahead = true) :
    s.context = .opened := by
  have hcond : (!s.window.held.isEmpty || Markup.startsWith (!isNewline ·) s.window.ahead) = true := by
    rcases h with h | h
    · simp [h]
    · rw [h, Bool.or_true]
  simp only [context, hp, hphase, hcond, Option.isSome_none, Bool.false_eq_true, if_false, if_true]

theorem context_eq_within (hp : s.pending = none) (hphase : s.phase = .prose)
    (hheld : s.window.held = [])
    (h : Markup.startsWith (!isNewline ·) s.window.ahead = false) : s.context = .within := by
  simp [context, hp, hphase, hheld, h]

theorem Emits.of_slides {t : Token} (hslides : Slides s s') (h : Emits s' t s'') :
    Emits s t s'' := by
  obtain ⟨⟨gap, hgap, hrest, hoffset, hinside⟩, hopened⟩ := hslides
  have hcontext : s'.context ≠ .opened → s.context ≠ .opened := fun h h' => h (hopened h')
  cases h with
  | finish hc hgap' ht hphase hpending =>
    refine .finish (hcontext hc) ?_ ?_ hphase hpending
    · rw [hrest]
      exact hgap.append hgap'
    · rw [ht, hrest, hoffset, Text.size_append, Nat.add_assoc]
  | indented gap' v hc hgap' hv ht hrest' hoffset' hc' hphase =>
    refine .indented (gap ++ gap') v (hcontext hc) (hgap.append hgap') hv ?_ ?_ ?_ hc' hphase
    · rw [ht, hoffset, Text.size_append, Nat.add_assoc]
    · rw [hrest, hrest', List.append_assoc]
    · rw [hoffset', hoffset, Text.size_append, ← Nat.add_assoc]
  | paragraph gap' hc hgap' ht hrest' hoffset' hc' hphase =>
    refine .paragraph (gap ++ gap') (hcontext hc) (hgap.append hgap') ?_ ?_ ?_ hc' hphase
    · rw [ht, hoffset, Text.size_append, Nat.add_assoc]
    · rw [hrest, hrest', List.append_assoc]
    · rw [hoffset', hoffset, Text.size_append, ← Nat.add_assoc]
  | inline kind v hc hkind hv ht hrest' hoffset' hphase =>
    obtain ⟨rfl, hc'⟩ := hinside hc
    have hoffset : s'.offset = s.offset := hoffset
    exact .inline kind v hc' hkind hv (by rw [ht, hoffset]) (hrest.trans hrest')
      (by rw [hoffset', hoffset]) hphase

theorem Step.Sound.congr {r : Step} (s' : Scanner) (hphase : s'.phase = s.phase)
    (hcontext : s'.context = s.context) (hoffset : s'.offset = s.offset) (hrest : s'.rest = s.rest)
    (h : r.Sound s') : r.Sound s := by
  have hslides : Slides s s' :=
    ⟨⟨[], .nil, hrest.symm, hoffset, fun h => ⟨rfl, hcontext ▸ h⟩⟩, fun h => hcontext.trans h⟩
  cases r with
  | stop => exact hphase.symm.trans h
  | go u =>
    obtain ⟨hinv, hp, hlive, ⟨gap, hgap, hrest', hoffset', hinside⟩, hopened⟩ := h
    rw [hrest] at hrest'
    rw [hoffset] at hoffset'
    rw [hcontext] at hinside hopened
    exact ⟨hinv, hp, hlive, ⟨gap, hgap, hrest', hoffset', hinside⟩, hopened⟩
  | emit t u => exact ⟨h.1, h.2.of_slides hslides⟩

end DocComment.Scanner
