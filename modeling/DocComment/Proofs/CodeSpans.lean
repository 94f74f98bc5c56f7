import DocComment.Proofs.LineBreaks
import DocComment.Proofs.ScannerSteps

/-!
# Code spans

A code span stands between two backticks and goes on over lines that are neither empty nor indented
(`Markup.Unbroken`). `Markup.codeLength?` finds nothing but code spans
(`Markup.isCodeSpan_of_codeLength?`) and finds one where there is one
(`Markup.codeLength?_eq_none_iff`).
-/

namespace DocComment.Markup

variable {t u : Text}

/-- No line break is followed by a blank character. -/
def Unbroken (t : Text) : Prop :=
  ∀ x y, t = x ++ y → startsWith isNewline y = true →
    startsWith isBlank (y.drop (breakLength y)) = false

/-- Two backticks and a text without any between them, whose lines go on. -/
structure IsCodeSpan (v : Text) : Prop where
  quoted : ∃ body, v = '`' :: body ++ ['`'] ∧ '`' ∉ body
  unbroken : Unbroken v

/-! ### Line breaks and what stands behind -/

theorem breakLength_le (h : t ≠ []) : breakLength t ≤ t.length := by
  unfold breakLength
  split
  · simp
  · exact List.length_pos_iff.2 h

/-- Only a line feed behind it can make a line break longer. -/
theorem breakLength_append_left (ht : t ≠ []) (hu : startsWith (· == '\n') u = false) :
    breakLength (t ++ u) = breakLength t := by
  cases t with
  | nil => contradiction
  | cons c t =>
    by_cases hcrlf : ∃ v, c = '\r' ∧ t = '\n' :: v
    · obtain ⟨v, rfl, rfl⟩ := hcrlf
      rfl
    · rw [breakLength_eq_one fun v hc hv => hcrlf ⟨v, hc, hv⟩]
      refine breakLength_eq_one fun v hc hv => ?_
      cases t with
      | nil =>
        rw [show u = '\n' :: v from hv] at hu
        cases hu
      | cons d t => exact hcrlf ⟨t, hc, by rw [(List.cons.inj hv).1]⟩

theorem drop_breakLength_append (ht : t ≠ []) (hu : startsWith (· == '\n') u = false) :
    (t ++ u).drop (breakLength (t ++ u)) = t.drop (breakLength t) ++ u := by
  rw [breakLength_append_left ht hu, List.drop_append_of_le_length (breakLength_le ht)]

theorem startsWith_take {p : Char → Bool} (h : startsWith p t = false) (n : Nat) :
    startsWith p (t.take n) = false := by
  cases t with
  | nil => rw [List.take_nil, h]
  | cons c t =>
    cases n with
    | zero => rfl
    | succ n => exact h

namespace Unbroken

theorem nil : Unbroken [] := by
  intro x y h hy
  obtain ⟨-, rfl⟩ := List.append_eq_nil_iff.1 h.symm
  cases hy

theorem right {m : Text} (h : Unbroken (m ++ t)) : Unbroken t := by
  rintro x y rfl hy
  exact h (m ++ x) y (List.append_assoc m x y).symm hy

theorem cons {c : Char} (h : Unbroken t)
    (hc : isNewline c = true →
      startsWith isBlank ((c :: t).drop (breakLength (c :: t))) = false) :
    Unbroken (c :: t) := by
  intro x y heq hy
  cases x with
  | nil =>
    obtain rfl := heq
    exact hc hy
  | cons d x => exact h x y (List.cons.inj heq).2 hy

theorem char {c : Char} (h : Unbroken t) (hc : isNewline c = false) :
    Unbroken (c :: t) :=
  h.cons fun hnewline => by rw [hc] at hnewline; cases hnewline

/-- A line break in front of a line that goes on. -/
theorem brk (ht : startsWith isNewline t = true) (hu : startsWith isBlank u = false)
    (h : Unbroken u) : Unbroken (t.take (breakLength t) ++ u) := by
  rcases break_cases ht with ⟨v, rfl, hn⟩ | ⟨c, v, rfl, hc, hn, hcr⟩
  · rw [hn]
    exact (h.cons (c := '\n') fun _ => hu).cons fun _ => hu
  · rw [hn]
    refine h.cons fun _ => ?_
    have hone : breakLength (c :: u) = 1 := by
      refine breakLength_eq_one ?_
      rintro w rfl rfl
      cases hu
    show startsWith isBlank ((c :: u).drop (breakLength (c :: u))) = false
    rw [hone]
    exact hu

end Unbroken

/-! ### What the search for a code span finds -/

theorem unbroken_of_codeLength? {n : Nat} (h : codeLength? t = some n) : Unbroken (t.take n) := by
  induction t using break_induction generalizing n with
  | nil => cases h
  | brk t hbreak ih =>
    rw [codeLength?_break hbreak] at h
    split at h
    · cases h
    · next hblank =>
      obtain ⟨k, hk, rfl⟩ := Option.map_eq_some_iff.1 h
      rw [Nat.add_comm, List.take_add]
      exact .brk hbreak (startsWith_take (by simpa using hblank) k) (ih hk)
  | char c t hc ih =>
    by_cases hcode : c = '`'
    · subst hcode
      rw [codeLength?] at h
      obtain rfl := Option.some.inj h
      exact Unbroken.nil.char hc
    · rw [codeLength?_char hc hcode] at h
      obtain ⟨k, hk, rfl⟩ := Option.map_eq_some_iff.1 h
      exact (ih hk).char hc

theorem isCodeSpan_of_codeLength? {n : Nat} (h : codeLength? t = some n) :
    IsCodeSpan ('`' :: t.take n) := by
  refine ⟨?_, (unbroken_of_codeLength? h).char rfl⟩
  obtain ⟨body, rest, hbody, rfl, rfl⟩ := exists_of_codeLength? h
  refine ⟨body, ?_, hbody⟩
  have htake : (body ++ '`' :: rest).take (body.length + 1) = body ++ ['`'] := by
    rw [List.take_append, List.take_of_length_le (Nat.le_succ _), Nat.add_sub_cancel_left]
    rfl
  rw [htake]
  rfl

/-- A backtick whose lines go on up to it is found. -/
theorem codeLength?_ne_none {body : Text} (hbody : '`' ∉ body) (h : Unbroken (body ++ ['`']))
    (rest : Text) : codeLength? (body ++ '`' :: rest) ≠ none := by
  induction body using break_induction with
  | nil => simp [codeLength?]
  | brk body hbreak ih =>
    have hne : body ≠ [] := by
      rintro rfl
      cases hbreak
    have hstart : ∀ u, startsWith isNewline (body ++ u) = true := by
      intro u
      cases body with
      | nil => contradiction
      | cons c body => exact hbreak
    -- what follows the line break is in the body or the backtick
    have hline : ∀ u, startsWith isBlank (body.drop (breakLength body) ++ '`' :: u) =
        startsWith isBlank (body.drop (breakLength body) ++ ['`']) := by
      intro u
      cases body.drop (breakLength body) <;> rfl
    have hfollow := h [] (body ++ ['`']) rfl (hstart _)
    rw [drop_breakLength_append hne rfl] at hfollow
    have hsplit := List.take_append_drop (breakLength body) body
    rw [codeLength?_break (hstart _), drop_breakLength_append hne rfl, hline, hfollow]
    simp only [Bool.false_eq_true, if_false, ne_eq, Option.map_eq_none_iff]
    refine ih ?_ ?_
    · intro hmem
      exact hbody (List.mem_of_mem_drop hmem)
    · rw [← hsplit, List.append_assoc] at h
      exact h.right
  | char c body hc ih =>
    obtain ⟨hcode, hbody⟩ : '`' ≠ c ∧ '`' ∉ body := by simpa using hbody
    rw [List.cons_append, codeLength?_char hc hcode.symm, ne_eq, Option.map_eq_none_iff]
    exact ih hbody (h.right (m := [c]))

/-- The search fails only where no code span begins. -/
theorem codeLength?_eq_none_iff : codeLength? t = none ↔ ∀ u, u <+: '`' :: t → ¬ IsCodeSpan u := by
  constructor
  · rintro hnone u ⟨rest, hrest⟩ hspan
    obtain ⟨body, rfl, hbody⟩ := hspan.quoted
    have ht : t = body ++ '`' :: rest := by
      simpa using (List.cons.inj hrest).2.symm
    rw [ht] at hnone
    exact codeLength?_ne_none hbody (hspan.unbroken.right (m := ['`'])) rest hnone
  · intro hnone
    cases hlength : codeLength? t with
    | none => rfl
    | some n =>
      refine absurd (isCodeSpan_of_codeLength? hlength) (hnone _ ?_)
      exact (List.prefix_cons_inj '`').2 (List.take_prefix n t)

end DocComment.Markup
