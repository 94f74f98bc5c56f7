import DocComment.Scanner.Basic

/-!
# Scanning comes to an end

A step that yields no token reads on or moves to a later phase, so `Scanner.work` goes down. A step
that yields a token takes the stretch out of the window or moves to a later phase, so
`Scanner.bound` goes down, and no step makes it go up. `progress_step` says so for every scanner.
-/

namespace DocComment.Scanner

/-- The phases in the order in which they may follow each other without reading. -/
def Phase.rank : Phase → Nat
  | block => 3
  | prose => 2
  | finish => 1
  | done => 0

/-- A bound for the number of steps before the next token. -/
def work (s : Scanner) : Nat := 4 * s.window.ahead.length + s.phase.rank

/-- A bound for the number of tokens to come. -/
def bound (s : Scanner) : Nat :=
  4 * (s.window.held.length + s.window.ahead.length) + s.phase.rank + s.pending.toList.length

def Step.Progress (s : Scanner) : Step → Prop
  | .stop => True
  | .go s' => s'.work < s.work ∧ s'.bound ≤ s.bound
  | .emit _ s' => s'.bound < s.bound

theorem Step.Progress.mono {s s' : Scanner} {r : Step} (hwork : s'.work ≤ s.work)
    (hbound : s'.bound ≤ s.bound) (h : r.Progress s') : r.Progress s := by
  cases r with
  | stop => trivial
  | go t => exact ⟨Nat.lt_of_lt_of_le h.1 hwork, Nat.le_trans h.2 hbound⟩
  | emit t u => exact Nat.lt_of_lt_of_le h hbound

theorem bound_read (n : Nat) (s : Scanner) : (s.read n).bound = s.bound := by
  simp only [bound, read, Window.held_read, Window.ahead_read, List.length_append,
    List.length_reverse, List.length_take, List.length_drop]
  omega

theorem work_skip_le (n : Nat) (s : Scanner) : (s.skip n).work ≤ s.work := by
  simp only [work, skip, Window.ahead_release, Window.ahead_read, List.length_drop]
  omega

theorem bound_skip_le (n : Nat) (s : Scanner) : (s.skip n).bound ≤ s.bound := by
  simp only [bound, skip, Window.held_release, Window.ahead_release, Window.ahead_read,
    List.length_drop, List.length_nil]
  omega

theorem progress_read {n : Nat} {s : Scanner} (hn : 0 < n) (h : s.window.ahead ≠ []) :
    (Step.go (s.read n)).Progress s := by
  have hlen := List.length_pos_iff.2 h
  refine ⟨?_, Nat.le_of_eq (bound_read n s)⟩
  simp only [work, read, Window.ahead_read, List.length_drop]
  omega

/-- Moving to a later phase is progress. -/
theorem progress_phase {s : Scanner} {phase : Phase} (h : phase.rank < s.phase.rank) :
    (Step.go { s with phase := phase }).Progress s := by
  constructor
  · simp only [work]
    omega
  · simp only [bound]
    omega

/-- Skipping some characters is progress, whatever the next phase. -/
theorem progress_skip_phase {n : Nat} {s : Scanner} (phase : Phase) (hn : 0 < n)
    (h : s.window.ahead ≠ []) : (Step.go { s.skip n with phase := phase }).Progress s := by
  have hlen := List.length_pos_iff.2 h
  have : phase.rank ≤ 3 := by cases phase <;> decide
  constructor
  · simp only [work, skip, Window.ahead_release, Window.ahead_read, List.length_drop]
    omega
  · simp only [bound, skip, Window.held_release, Window.ahead_release, Window.ahead_read,
      List.length_drop, List.length_nil]
    omega

/-- Making a token of some characters is progress, whatever the next phase. -/
theorem progress_emit {n : Nat} {s : Scanner} (phase : Phase) (kind : Token.Kind)
    (h : 0 < s.window.held.length + min n s.window.ahead.length) :
    ({ s.read n with phase := phase }.emit kind).Progress s := by
  have : phase.rank ≤ 3 := by cases phase <;> decide
  simp only [emit, Step.Progress, bound, read, Window.held_release, Window.ahead_release,
    Window.ahead_read, List.length_drop, List.length_nil]
  omega

/-- Making a token and moving to a later phase is progress. -/
theorem progress_emit_phase {s : Scanner} {phase : Phase} (kind : Token.Kind)
    (h : phase.rank < s.phase.rank) : ({ s with phase := phase }.emit kind).Progress s := by
  simp only [emit, Step.Progress, bound, Window.held_release, Window.ahead_release,
    List.length_nil]
  omega

/-! ### The steps -/

theorem indentedLength_pos (c : Char) (t : Text) : 0 < Markup.indentedLength (c :: t) := by
  unfold Markup.indentedLength
  split
  · contradiction
  · split <;> omega
  · split <;> omega

theorem breakLength_pos (t : Text) : 0 < Markup.breakLength t := by
  unfold Markup.breakLength
  split <;> omega

theorem progress_indentedStep {s : Scanner} (h : s.window.ahead ≠ []) :
    s.indentedStep.Progress s := by
  apply progress_emit
  obtain ⟨c, t, hct⟩ := List.exists_cons_of_ne_nil h
  have := indentedLength_pos c t
  rw [hct, List.length_cons]
  omega

theorem progress_blockStep {s : Scanner} (hs : s.phase = .block) : s.blockStep.Progress s := by
  unfold blockStep
  extract_lets breaks t
  have hrank : t.phase.rank = 3 := by
    show s.phase.rank = 3
    rw [hs]; rfl
  refine Step.Progress.mono (work_skip_le breaks.length s) (bound_skip_le breaks.length s) ?_
  show Step.Progress t _
  split
  · exact progress_phase (by rw [hrank]; decide)
  · next c rest hc =>
    split
    · exact progress_indentedStep (by rw [hc]; simp)
    · exact progress_emit_phase _ (by rw [hrank]; decide)

theorem progress_breakStep {s : Scanner} (h : s.window.ahead ≠ []) : s.breakStep.Progress s := by
  have hlen := List.length_pos_iff.2 h
  unfold breakStep
  extract_lets n rest
  have hn : 0 < n := breakLength_pos _
  split
  · next hrest =>
    have hahead : (s.skip n).window.ahead = rest := by simp [skip, rest]
    have hne : rest ≠ [] := by
      intro hnil
      simp [hnil, Markup.startsWith] at hrest
    exact (progress_indentedStep (by rwa [hahead])).mono (work_skip_le n s) (bound_skip_le n s)
  · split
    · exact progress_skip_phase _ (by omega) h
    · exact progress_read hn h

theorem progress_markerStep {s : Scanner} (c : Char) (h : s.window.ahead ≠ []) :
    (s.markerStep c).Progress s := by
  have hlen := List.length_pos_iff.2 h
  unfold markerStep
  split
  · split
    · exact progress_emit s.phase _ (by omega)
    · exact progress_read Nat.one_pos h
  · split
    · split
      · exact progress_emit s.phase _ (by omega)
      · exact progress_emit s.phase _ (by omega)
    · split
      · split
        · next n hn =>
          have : n ≠ 0 := by
            rintro rfl
            exact Url.linkLength?_ne_zero _ hn
          exact progress_emit s.phase _ (by omega)
        · exact progress_read Nat.one_pos h
      · exact progress_breakStep h

theorem progress_urlStep {s : Scanner} (scheme rest : Nat) (h : s.window.ahead ≠ []) :
    (s.urlStep scheme rest).Progress s := by
  have hlen := List.length_pos_iff.2 h
  unfold urlStep
  extract_lets t url text start first second
  split
  · exact progress_emit s.phase _ (by omega)
  · show bound _ < bound _
    simp only [bound, t, read, Window.held_release, Window.ahead_release, Window.ahead_read,
      List.length_drop, List.length_nil, Option.toList_some, List.length_singleton]
    omega

theorem work_seek_le (s : Scanner) : s.seek.work ≤ s.work := by
  simp only [work, seek, Window.readTo, Window.ahead_read, List.length_drop]
  omega

theorem bound_seek (s : Scanner) : s.seek.bound = s.bound := by
  simp only [bound, seek, Window.readTo, Window.held_read, Window.ahead_read, List.length_append,
    List.length_reverse, List.length_take, List.length_drop]
  omega

theorem progress_proseStep {s : Scanner} (hs : s.phase = .prose) : s.proseStep.Progress s := by
  unfold proseStep
  extract_lets t
  have hrank : t.phase.rank = 2 := by
    show s.phase.rank = 2
    rw [hs]; rfl
  refine Step.Progress.mono (work_seek_le s) (Nat.le_of_eq (bound_seek s)) ?_
  show Step.Progress t _
  split
  · split
    · exact progress_phase (by rw [hrank]; decide)
    · exact progress_emit_phase _ (by rw [hrank]; decide)
  · next c rest hc =>
    have hne : t.window.ahead ≠ [] := by rw [hc]; simp
    split
    · split
      · exact progress_urlStep _ _ hne
      · exact progress_read Nat.one_pos hne
    · split
      · next hheld =>
        have : 0 < t.window.held.length := by
          cases hh : t.window.held <;> simp [hh] at hheld ⊢
        exact progress_emit (n := 0) t.phase _ (by omega)
      · exact progress_markerStep c hne

/-- Every step makes progress. -/
theorem progress_step (s : Scanner) : s.step.Progress s := by
  unfold step
  split
  · next hs => exact progress_blockStep hs
  · next hs => exact progress_proseStep hs
  · next hs =>
    show bound _ < bound _
    simp only [bound, Window.held_release, Window.ahead_release, List.length_nil, hs, Phase.rank]
    omega
  · trivial

end DocComment.Scanner
