import DocComment.Text.Basic

/-!
# Patterns with ordered choice

A pattern matches a beginning of a text. Its alternatives are ordered and repetition is greedy, so
the ways to match come in an order of preference: `Pattern.ends` lists, most preferred first, what
each way leaves over. The preferred match is the first of them.

`Pattern.first?` finds the preferred way after which the rest of the work succeeds without making
the list, and `first?_eq_findSome?` says that it finds the same.
-/

namespace DocComment

inductive Pattern where
  /-- Matches the empty text. -/
  | nothing
  /-- Matches one character of a class. -/
  | char (p : Char → Bool)
  /-- Matches the one pattern and then the other. -/
  | seq (p q : Pattern)
  /-- Matches the first pattern or, as a second choice, the other. -/
  | alt (p q : Pattern)
  /-- Matches a pattern again and again, as often as it can by preference. Each time it should match
  one character at least. -/
  | many (p : Pattern)

namespace Pattern

/-- Matches a given text. -/
def word (t : Text) : Pattern := t.foldr (fun c p => seq (char (· == c)) p) nothing

/-- Matches a pattern if it can, and nothing otherwise. -/
def opt (p : Pattern) : Pattern := alt p nothing

def plus (p : Pattern) : Pattern := seq p (many p)

/-- Matches one of the patterns; earlier ones are preferred. -/
def choice (ps : List Pattern) : Pattern := ps.foldr alt (char fun _ => false)

def chain (ps : List Pattern) : Pattern := ps.foldr seq nothing

/-- What is left after repeating `step` at most `n` times, more repetitions first. -/
def repeatEnds (step : Text → List Text) : Nat → Text → List Text
  | 0, t => [t]
  | n + 1, t => (step t).flatMap (repeatEnds step n) ++ [t]

/-- What each way to match leaves of a text, in the order of preference. -/
def ends : Pattern → Text → List Text
  | nothing, t => [t]
  | char _, [] => []
  | char p, c :: t => if p c then [t] else []
  | seq p q, t => (p.ends t).flatMap q.ends
  | alt p q, t => p.ends t ++ q.ends t
  | many p, t => repeatEnds p.ends t.length t

/-- The answer of `next` after the most preferred repetition of `step` for which it has one. -/
def repeatFirst? {α : Type} (step : (Text → Option α) → Text → Option α) (next : Text → Option α) :
    Nat → Text → Option α
  | 0, t => next t
  | n + 1, t => (step (repeatFirst? step next n) t).or (next t)

/-- The answer of `next` after the most preferred way to match for which it has one. -/
def first? {α : Type} : Pattern → (Text → Option α) → Text → Option α
  | nothing, next, t => next t
  | char _, _, [] => none
  | char p, next, c :: t => if p c then next t else none
  | seq p q, next, t => p.first? (q.first? next) t
  | alt p q, next, t => (p.first? next t).or (q.first? next t)
  | many p, next, t => repeatFirst? p.first? next t.length t

/-- The number of characters of the preferred match. -/
def length? (p : Pattern) (t : Text) : Option Nat :=
  p.first? (fun rest => some (t.length - rest.length)) t

theorem findSome?_flatMap {α β γ : Type} (l : List α) (f : α → List β) (g : β → Option γ) :
    (l.flatMap f).findSome? g = l.findSome? fun a => (f a).findSome? g := by
  induction l with
  | nil => rfl
  | cons a l ih =>
    rw [List.flatMap_cons, List.findSome?_append, List.findSome?_cons, ih]
    cases (f a).findSome? g <;> rfl

theorem repeatFirst?_eq_findSome? {α : Type} {step : (Text → Option α) → Text → Option α}
    {stepEnds : Text → List Text}
    (hstep : ∀ next t, step next t = (stepEnds t).findSome? next) (next : Text → Option α)
    (n : Nat) (t : Text) :
    repeatFirst? step next n t = (repeatEnds stepEnds n t).findSome? next := by
  induction n generalizing t with
  | zero => simp [repeatFirst?, repeatEnds]
  | succ n ih =>
    have hfun : repeatFirst? step next n = fun u => (repeatEnds stepEnds n u).findSome? next :=
      funext ih
    simp [repeatFirst?, repeatEnds, hstep, hfun, findSome?_flatMap, List.findSome?_append]

/-- Searching with `first?` answers as searching through `ends` does. -/
theorem first?_eq_findSome? {α : Type} (p : Pattern) (next : Text → Option α) (t : Text) :
    p.first? next t = (p.ends t).findSome? next := by
  induction p generalizing next t with
  | nothing => simp [first?, ends]
  | char p =>
    cases t with
    | nil => rfl
    | cons c t => simp only [first?, ends]; split <;> simp
  | seq p q ihp ihq =>
    have hfun : q.first? next = fun u => (q.ends u).findSome? next := funext (ihq next)
    rw [first?, ends, ihp, hfun, findSome?_flatMap]
  | alt p q ihp ihq => rw [first?, ends, ihp, ihq, List.findSome?_append]
  | many p ih => exact repeatFirst?_eq_findSome? ih next t.length t

/-- The preferred match is the first of the ways to match. -/
theorem length?_eq_head? (p : Pattern) (t : Text) :
    p.length? t = (p.ends t).head?.map fun rest => t.length - rest.length := by
  rw [length?, first?_eq_findSome?]
  cases p.ends t <;> simp

/-! ### What is left is an end of the text -/

theorem isSuffix_of_mem_repeatEnds {step : Text → List Text}
    (hstep : ∀ t, ∀ rest ∈ step t, rest <:+ t) (n : Nat) :
    ∀ t, ∀ rest ∈ repeatEnds step n t, rest <:+ t := by
  induction n with
  | zero =>
    intro t rest h
    simp only [repeatEnds, List.mem_singleton] at h
    exact h ▸ List.suffix_refl t
  | succ n ih =>
    intro t rest h
    simp only [repeatEnds, List.mem_append, List.mem_flatMap, List.mem_singleton] at h
    rcases h with ⟨u, hu, hrest⟩ | rfl
    · exact (ih u rest hrest).trans (hstep t u hu)
    · exact List.suffix_refl rest

theorem isSuffix_of_mem_ends (p : Pattern) : ∀ t, ∀ rest ∈ p.ends t, rest <:+ t := by
  induction p with
  | nothing =>
    intro t rest h
    simp only [ends, List.mem_singleton] at h
    exact h ▸ List.suffix_refl t
  | char p =>
    intro t rest h
    cases t with
    | nil => simp [ends] at h
    | cons c t =>
      simp only [ends] at h
      split at h
      · rw [List.mem_singleton.1 h]
        exact List.suffix_cons c t
      · simp at h
  | seq p q ihp ihq =>
    intro t rest h
    simp only [ends, List.mem_flatMap] at h
    obtain ⟨u, hu, hrest⟩ := h
    exact (ihq u rest hrest).trans (ihp t u hu)
  | alt p q ihp ihq =>
    intro t rest h
    rcases List.mem_append.1 h with h | h
    · exact ihp t rest h
    · exact ihq t rest h
  | many p ih =>
    intro t rest h
    exact isSuffix_of_mem_repeatEnds ih t.length t rest h

/-- A word that is not empty takes a character at least, whatever comes after it. -/
theorem length?_word_cons_seq_ne_zero (c : Char) (w : Text) (q : Pattern) (t : Text) :
    (seq (word (c :: w)) q).length? t ≠ some 0 := by
  intro h
  rw [length?_eq_head?, Option.map_eq_some_iff] at h
  obtain ⟨rest, hrest, hlen⟩ := h
  have hmem : rest ∈ (((char (· == c)).ends t).flatMap (word w).ends).flatMap q.ends :=
    List.mem_of_head? hrest
  obtain ⟨u, hu, hrest⟩ := List.mem_flatMap.1 hmem
  obtain ⟨v, hv, hu⟩ := List.mem_flatMap.1 hu
  have hle := ((isSuffix_of_mem_ends q u rest hrest).trans
    (isSuffix_of_mem_ends (word w) v u hu)).length_le
  cases t with
  | nil => simp [ends] at hv
  | cons a t =>
    simp only [ends] at hv
    split at hv
    · rw [List.mem_singleton.1 hv] at hle
      rw [List.length_cons] at hlen
      omega
    · simp at hv

end Pattern

end DocComment
