import DocComment.Proofs.BlockStructure
import DocComment.Proofs.TrimmedLines
import Mathlib.Logic.Relation

/-!
# Searches are used again without a trace

A scanner that searches anew each time hands out the same tokens as one that uses earlier results
again (`Scanner.tokens_searchingAnew`). A scanner works in turns, which begin with a search where
there is prose. The scanners that come up while a text is read (`Scanner.Reachable`), between two
turns or behind a search, all keep what makes an earlier result good: `Scanner.Inv` and the text
itself. So in all of them a result that does not lie behind is where the text has the next character
of its class (`Scanner.Exact`).
-/

namespace DocComment

/-- `i` is the offset of the first character of a class from the offset `n` on, or of the end of the
text if there is none. -/
def Text.FirstFrom (p : Char → Bool) (text : Text) (n i : Nat) : Prop :=
  ∃ before gap rest, text = before ++ (gap ++ rest) ∧ size before = n ∧ i = n + size gap ∧
    (∀ c ∈ gap, p c = false) ∧ (rest = [] ∨ Markup.startsWith p rest = true)

/-- A search from a window on finds the first character of the class in the text. -/
theorem Window.firstFrom_find (w : Window) (p : Char → Bool) :
    w.text.FirstFrom p w.pos (w.find p) := by
  refine ⟨w.before.reverse ++ w.held.reverse, w.ahead.takeWhile (!p ·), w.ahead.dropWhile (!p ·),
    ?_, ?_, rfl, fun c hc => ?_, ?_⟩
  · rw [List.takeWhile_append_dropWhile]
    rfl
  · rw [w.pos_eq, w.start_eq, Text.size_append, Text.size_reverse, Text.size_reverse]
  · simpa using List.mem_takeWhile_imp hc
  · exact Markup.eq_nil_or_startsWith (Markup.startsWith_dropWhile (!p ·) w.ahead)

namespace Scanner

/-! ### The scanners of a text -/

/-- What a scanner does at a time: it makes a step, with or without a token, or hands out the token
that waits. -/
inductive Turns (s : Scanner) : Scanner → Prop
  | go {s' : Scanner} : s.pending = none → s.step = .go s' → Turns s s'
  | emit {t : Token} {s' : Scanner} : s.pending = none → s.step = .emit t s' → Turns s s'
  | deliver {t : Token} : s.pending = some t → Turns s { s with pending := none }

/-- A turn, or only the beginning of one: the search for the next special character. -/
inductive Moves (s : Scanner) : Scanner → Prop
  | seek : s.pending = none → s.phase = .prose → Moves s s.seek
  | turn {s' : Scanner} : Turns s s' → Moves s s'

/-- A scanner that comes up while `text` is read. -/
def Reachable (text : Text) (s : Scanner) : Prop := Relation.ReflTransGen Moves (ofText text) s

/-- The results of the searches are right for `text`, and a search with them reads as far as a new
one. -/
structure Exact (text : Text) (s : Scanner) : Prop where
  marker : ∀ i ∈ s.marker?, s.window.pos ≤ i → text.FirstFrom isMarker s.window.pos i
  brk : ∀ i ∈ s.break?, s.window.pos ≤ i → text.FirstFrom isBreak s.window.pos i
  seek : s.seek.window = s.window.readTo (s.window.find isSpecial)

variable {s s' : Scanner} {text : Text}

theorem next?_of_pending {t : Token} (hp : s.pending = some t) :
    s.next? = some (t, { s with pending := none }) := by
  rw [next?]
  simp only [hp]

theorem Inv.of_turns (h : s.Inv) (hturns : Turns s s') : s'.Inv := by
  cases hturns with
  | go hp hstep | emit hp hstep =>
    have hsound := h.sound_step hp
    rw [hstep] at hsound
    exact hsound.1
  | deliver hp => exact (h.emits_next? (next?_of_pending hp)).1

theorem Inv.of_moves (h : s.Inv) (hmoves : Moves s s') : s'.Inv := by
  cases hmoves with
  | seek hp hphase => exact h.seek hp hphase
  | turn hturns => exact h.of_turns hturns

/-! ### The text stays the same -/

/-- The scanner behind a step reads the same text. -/
def Step.Reads (text : Text) : Step → Prop
  | .stop => True
  | .go s => s.window.text = text
  | .emit _ s => s.window.text = text

theorem text_seek (s : Scanner) : s.seek.window.text = s.window.text := Window.text_read _ _

theorem reads_read (s : Scanner) (n : Nat) : (Step.go (s.read n)).Reads s.window.text :=
  Window.text_read _ _

theorem reads_emit (s : Scanner) (n : Nat) (phase : Phase) (kind : Token.Kind) :
    ({ s.read n with phase := phase }.emit kind).Reads s.window.text :=
  (Window.text_release _).trans (Window.text_read _ _)

theorem text_skip (s : Scanner) (n : Nat) : (s.skip n).window.text = s.window.text :=
  (Window.text_release _).trans (Window.text_read _ _)

theorem reads_indentedStep (s : Scanner) : s.indentedStep.Reads s.window.text := reads_emit s _ _ _

theorem reads_blockStep (s : Scanner) : s.blockStep.Reads s.window.text := by
  unfold blockStep
  extract_lets breaks t
  rw [show s.window.text = t.window.text from (text_skip s _).symm]
  split
  · rfl
  · split
    · exact reads_indentedStep t
    · exact reads_emit t 0 .prose .paragraph

theorem reads_breakStep (s : Scanner) : s.breakStep.Reads s.window.text := by
  unfold breakStep
  extract_lets n rest
  split
  · rw [← text_skip s n]
    exact reads_indentedStep _
  · split
    · exact text_skip s _
    · exact reads_read s n

theorem reads_markerStep (s : Scanner) (c : Char) : (s.markerStep c).Reads s.window.text := by
  unfold markerStep
  split
  · split
    · exact reads_emit s _ s.phase .code
    · exact reads_read s 1
  · split
    · split
      · exact reads_emit s 2 s.phase .doubleStar
      · exact reads_emit s 1 s.phase .star
    · split
      · split
        · exact reads_emit s _ s.phase .link
        · exact reads_read s 1
      · exact reads_breakStep s

theorem reads_proseStep (s : Scanner) : s.proseStep.Reads s.window.text := by
  rw [← text_seek s]
  unfold proseStep
  generalize s.seek = t
  dsimp only
  split
  · split
    · rfl
    · exact reads_emit t 0 .finish .text
  · split
    · split
      · unfold urlStep
        extract_lets u url text start first second
        split
        · exact reads_emit t _ t.phase .url
        · exact (Window.text_release _).trans (Window.text_read _ _)
      · exact reads_read t 1
    · split
      · exact reads_emit t 0 t.phase .text
      · exact reads_markerStep t _

theorem reads_step (s : Scanner) : s.step.Reads s.window.text := by
  unfold step
  split
  · exact reads_blockStep s
  · exact reads_proseStep s
  · exact (Window.text_release _).trans (Window.text_release _)
  · trivial

theorem Turns.text_eq (h : Turns s s') : s'.window.text = s.window.text := by
  cases h with
  | go _ hstep | emit _ hstep =>
    have hreads := reads_step s
    rwa [hstep] at hreads
  | deliver => rfl

theorem Moves.text_eq (h : Moves s s') : s'.window.text = s.window.text := by
  cases h with
  | seek => exact text_seek s
  | turn hturns => exact hturns.text_eq

/-! ### Whole runs -/

theorem Reachable.inv (h : Reachable text s) : s.Inv ∧ s.window.text = text := by
  induction h with
  | refl => exact ⟨inv_ofText text, rfl⟩
  | tail _ hmoves ih => exact ⟨ih.1.of_moves hmoves, hmoves.text_eq.trans ih.2⟩

theorem Reachable.exact (h : Reachable text s) : s.Exact text := by
  obtain ⟨hinv, rfl⟩ := h.inv
  refine ⟨fun i hi hle => ?_, fun i hi hle => ?_, hinv.searches.window_seek_eq_readTo⟩
  · rw [hinv.searches.marker i hi hle]
    exact s.window.firstFrom_find isMarker
  · rw [hinv.searches.brk i hi hle]
    exact s.window.firstFrom_find isBreak

/-- A scanner for `text` that does not use the results of its searches again. -/
def searchingAnew (text : Text) : Scanner := { ofText text with policy := { reuse := false } }

theorem window_seek_of_reuse_eq_false (h : s.policy.reuse = false) :
    s.seek.window = s.window.readTo (s.window.find isSpecial) := by
  have hlocate : ∀ cache p, s.locate cache p = s.window.find p := by
    intro cache p
    cases cache <;> simp [locate, h]
  exact window_seek_of_locate (hlocate _ _) (hlocate _ _)

/-- Using the results of searches again does not show. A scanner that never does, and looks each
time for the first special character from where it stands, hands out the same tokens; and for every
scanner that comes up, the results that do not lie behind are exact. -/
theorem tokens_searchingAnew (text : Text) :
    (searchingAnew text).tokens = Token.scan text ∧
    (∀ s : Scanner, s.policy.reuse = false →
      s.seek.window = s.window.readTo (s.window.find isSpecial)) ∧
    ∀ s, Reachable text s → s.Exact text := by
  refine ⟨?_, fun s => window_seek_of_reuse_eq_false, fun s => Reachable.exact⟩
  have htokens : (searchingAnew text).tokens = (searchingAnew text).reading :=
    (inv_ofReuse text false).tokens_eq_reading fun _ => .inr rfl
  rw [htokens, Token.scan_eq_layout, reading_block rfl rfl]
  rfl

/-- In front of the star, the search for a line break or a colon has already reached the end. -/
theorem tokens_searchingAnew_ahead :
    ∃ s, Reachable "a *b".toList s ∧ s.window.pos = 2 ∧ s.break? = some 4 ∧
      Text.FirstFrom isBreak "a *b".toList 2 4 := by
  obtain ⟨t, s, hstep, hp, hphase, hpos, hbrk⟩ :
      ∃ t s, (ofText "a *b".toList).step = .emit t s ∧ s.pending = none ∧ s.phase = .prose ∧
        s.seek.window.pos = 2 ∧ s.seek.break? = some 4 := ⟨_, _, rfl, rfl, rfl, rfl, rfl⟩
  have hreach : Reachable "a *b".toList s.seek :=
    (Relation.ReflTransGen.single (.turn (.emit rfl hstep))).tail (.seek hp hphase)
  have hfirst := ((tokens_searchingAnew _).2.2 s.seek hreach).brk 4 hbrk (by rw [hpos]; omega)
  rw [hpos] at hfirst
  exact ⟨s.seek, hreach, hpos, hbrk, hfirst⟩

end Scanner

end DocComment
