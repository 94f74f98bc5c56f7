import DocComment.Scanner.Progress

/-!
# The stream of tokens

`Scanner.next?` hands out the next token and `Token.scan` is the stream of a text. A scanner may
also be asked for some of its tokens and go on later.
-/

namespace DocComment

namespace Scanner

/-- The next token, and the scanner behind it. -/
def next? (s : Scanner) : Option (Token × Scanner) :=
  match s.pending with
  | some t => some (t, { s with pending := none })
  | none =>
    match _h : s.step with
    | .stop => none
    | .go s' => s'.next?
    | .emit t s' => some (t, s')
termination_by s.work
decreasing_by
  have hstep := progress_step s
  rw [_h] at hstep
  exact hstep.1

theorem bound_lt_of_next?_eq_some {s s' : Scanner} {t : Token} (h : s.next? = some (t, s')) :
    s'.bound < s.bound := by
  fun_induction next? s with
  | case1 s u hpending =>
    cases h
    simp [bound, hpending]
  | case2 => contradiction
  | case3 s _ u hstep ih =>
    have hprogress := progress_step s
    rw [hstep] at hprogress
    exact Nat.lt_of_lt_of_le (ih h) hprogress.2
  | case4 s _ u v hstep =>
    have hprogress := progress_step s
    rw [hstep] at hprogress
    cases h
    exact hprogress

def tokens (s : Scanner) : List Token :=
  match _h : s.next? with
  | none => []
  | some (t, s') => t :: s'.tokens
termination_by s.bound
decreasing_by exact bound_lt_of_next?_eq_some _h

/-- Passes over `n` tokens and gives the one behind them. -/
def nth : Nat → Scanner → Option Token × Scanner
  | n, s =>
    match s.next? with
    | none => (none, s)
    | some (t, s') =>
      match n with
      | 0 => (some t, s')
      | n + 1 => nth n s'

/-- The next tokens through the last one of the text, but no more than `n`. -/
def take : Nat → Scanner → List Token × Scanner
  | 0, s => ([], s)
  | n + 1, s =>
    match s.next? with
    | none => ([], s)
    | some (t, s') =>
      if t.kind = .finish then ([t], s')
      else
        let (ts, s'') := take n s'
        (t :: ts, s'')

/-- The tokens to come through the last one of the text. -/
def takeAll (s : Scanner) : List Token × Scanner := s.take s.bound

def exhaust (s : Scanner) : Scanner := (s.nth s.bound).2

end Scanner

def Token.scan (t : Text) : List Token := (Scanner.ofText t).tokens

end DocComment
