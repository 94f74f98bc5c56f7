import DocComment.Scanner.Progress
import Mathlib.Data.List.TakeWhile

/-!
# Line breaks and paragraphs

A line break is one or two characters long, and what it does depends on the line behind it. The
lengths of `Markup` are said here for a line break as a whole, with induction over line breaks and
other characters (`Markup.break_induction`).

`Markup.prose` is the part of a text that belongs to the paragraph it begins in: it ends in front of
an empty or an indented line. Code spans lie inside it (`Markup.prose_of_codeLength?`), and are found
by looking at it alone (`Markup.codeLength?_prose`).
-/

namespace DocComment.Markup

/-- The length of a paragraph, without the line break in front of the line that ends it. -/
def proseLength : Text → Nat
  | [] => 0
  | '\r' :: '\n' :: t => if startsWith isBlank t then 0 else proseLength t + 2
  | c :: t => if isNewline c && startsWith isBlank t then 0 else proseLength t + 1

/-! ### Line breaks as a whole -/

variable {t : Text}

theorem startsWith_eq_false {p : Char → Bool} (h : startsWith (!p ·) t = true) :
    startsWith p t = false := by
  cases t with
  | nil => rfl
  | cons c t => simpa [startsWith] using h

theorem eq_nil_or_startsWith {p : Char → Bool} (h : startsWith (!p ·) t = false) :
    t = [] ∨ startsWith p t = true := by
  cases t with
  | nil => exact .inl rfl
  | cons c t => exact .inr (by simpa [startsWith] using h)

theorem breakLength_eq_one {c : Char} (h : ∀ u, c = '\r' → t = '\n' :: u → False) :
    breakLength (c :: t) = 1 := by
  rw [breakLength]
  intro u heq
  obtain ⟨hc, ht⟩ := List.cons.inj heq
  exact h u hc ht

/-- A line break is a carriage return and a line feed, or one of the two alone. -/
theorem break_cases (h : startsWith isNewline t = true) :
    (∃ u, t = '\r' :: '\n' :: u ∧ breakLength t = 2) ∨
      ∃ c u, t = c :: u ∧ isNewline c = true ∧ breakLength t = 1 ∧
        ∀ v, c = '\r' → u = '\n' :: v → False := by
  cases t with
  | nil => cases h
  | cons c u =>
    by_cases hcrlf : ∃ v, c = '\r' ∧ u = '\n' :: v
    · obtain ⟨v, rfl, rfl⟩ := hcrlf
      exact .inl ⟨v, rfl, rfl⟩
    · have hcr : ∀ v, c = '\r' → u = '\n' :: v → False := fun v hc hu => hcrlf ⟨v, hc, hu⟩
      exact .inr ⟨c, u, rfl, h, breakLength_eq_one hcr, hcr⟩

/-- Induction over a text, line break by line break and character by character. -/
theorem break_induction {P : Text → Prop} (nil : P [])
    (brk : ∀ t, startsWith isNewline t = true → P (t.drop (breakLength t)) → P t)
    (char : ∀ c t, isNewline c = false → P t → P (c :: t)) (t : Text) : P t := by
  induction hlen : t.length using Nat.strong_induction_on generalizing t with
  | _ len ih =>
    subst hlen
    cases t with
    | nil => exact nil
    | cons c t =>
      cases hc : isNewline c with
      | false => exact char c t hc (ih t.length (Nat.lt_succ_self _) t rfl)
      | true =>
        refine brk (c :: t) hc (ih _ ?_ _ rfl)
        have hpos := Scanner.breakLength_pos (c :: t)
        rw [List.length_drop, List.length_cons]
        omega

theorem indentedLength_break (h : startsWith isNewline t = true) :
    indentedLength t =
      if startsWith isBlank (t.drop (breakLength t)) then
        indentedLength (t.drop (breakLength t)) + breakLength t
      else breakLength t := by
  rcases break_cases h with ⟨u, rfl, hn⟩ | ⟨c, u, rfl, hc, hn, hcr⟩
  · rw [hn, indentedLength]
    rfl
  · rw [hn, indentedLength, hc]
    · cases hblank : startsWith isBlank u <;> simp [hblank]
    · exact hcr

theorem proseLength_break (h : startsWith isNewline t = true) :
    proseLength t =
      if startsWith isBlank (t.drop (breakLength t)) then 0
      else proseLength (t.drop (breakLength t)) + breakLength t := by
  rcases break_cases h with ⟨u, rfl, hn⟩ | ⟨c, u, rfl, hc, hn, hcr⟩
  · rw [hn, proseLength]
    rfl
  · rw [hn, proseLength, hc]
    · rfl
    · exact hcr

theorem codeLength?_break (h : startsWith isNewline t = true) :
    codeLength? t =
      if startsWith isBlank (t.drop (breakLength t)) then none
      else (codeLength? (t.drop (breakLength t))).map (· + breakLength t) := by
  rcases break_cases h with ⟨u, rfl, hn⟩ | ⟨c, u, rfl, hc, hn, hcr⟩
  · rw [hn, codeLength?]
    rfl
  · have hcode : c = '`' → False := by
      rintro rfl
      cases hc
    rw [hn, codeLength?, hc]
    · rfl
    · exact hcode
    · exact hcr

theorem indentedLength_char {c : Char} (h : isNewline c = false) (t : Text) :
    indentedLength (c :: t) = indentedLength t + 1 := by
  rw [indentedLength, h]
  · rfl
  · rintro u rfl
    cases h

theorem proseLength_char {c : Char} (h : isNewline c = false) (t : Text) :
    proseLength (c :: t) = proseLength t + 1 := by
  rw [proseLength, h]
  · rfl
  · rintro u rfl
    cases h

theorem codeLength?_char {c : Char} (h : isNewline c = false) (hc : c ≠ '`') (t : Text) :
    codeLength? (c :: t) = (codeLength? t).map (· + 1) := by
  rw [codeLength?, h]
  · rfl
  · exact hc
  · rintro u rfl
    cases h

/-! ### Paragraphs -/

/-- The part of a text that belongs to the paragraph it begins in. -/
def prose (t : Text) : Text := t.take (proseLength t)

/-- What stands behind the paragraph that a text begins in. -/
def afterProse (t : Text) : Text := t.drop (proseLength t)

theorem prose_append_afterProse (t : Text) : prose t ++ afterProse t = t :=
  List.take_append_drop _ _

@[simp] theorem prose_nil : prose [] = [] := rfl

@[simp] theorem afterProse_nil : afterProse [] = [] := rfl

theorem prose_char {c : Char} (h : isNewline c = false) (t : Text) :
    prose (c :: t) = c :: prose t := by
  rw [prose, proseLength_char h, List.take_succ_cons, prose]

theorem afterProse_char {c : Char} (h : isNewline c = false) (t : Text) :
    afterProse (c :: t) = afterProse t := by
  rw [afterProse, proseLength_char h, List.drop_succ_cons, afterProse]

/-- A line break in front of a line of the paragraph. -/
theorem prose_break (h : startsWith isNewline t = true)
    (hblank : startsWith isBlank (t.drop (breakLength t)) = false) :
    prose t = t.take (breakLength t) ++ prose (t.drop (breakLength t)) ∧
      afterProse t = afterProse (t.drop (breakLength t)) := by
  rw [prose, afterProse, proseLength_break h, if_neg (by simp [hblank]), Nat.add_comm, List.take_add,
    ← List.drop_drop]
  exact ⟨rfl, rfl⟩

/-- A line break in front of a line that ends the paragraph. -/
theorem prose_end (h : startsWith isNewline t = true)
    (hblank : startsWith isBlank (t.drop (breakLength t)) = true) :
    prose t = [] ∧ afterProse t = t := by
  rw [prose, afterProse, proseLength_break h, if_pos hblank]
  exact ⟨rfl, rfl⟩

theorem prose_append {m : Text} (h : ∀ c ∈ m, isNewline c = false) (t : Text) :
    prose (m ++ t) = m ++ prose t ∧ afterProse (m ++ t) = afterProse t := by
  induction m with
  | nil => exact ⟨rfl, rfl⟩
  | cons c m ih =>
    obtain ⟨hc, hm⟩ := List.forall_mem_cons.1 h
    obtain ⟨hprose, hafter⟩ := ih hm
    rw [List.cons_append, prose_char hc, afterProse_char hc, hprose, hafter]
    exact ⟨rfl, rfl⟩

/-- A paragraph ends at the end of a line. -/
theorem afterProse_cases (t : Text) :
    afterProse t = [] ∨ startsWith isNewline (afterProse t) = true := by
  induction t using break_induction with
  | nil => exact .inl rfl
  | brk t h ih =>
    cases hblank : startsWith isBlank (t.drop (breakLength t)) with
    | true =>
      rw [(prose_end h hblank).2]
      exact .inr h
    | false =>
      rw [(prose_break h hblank).2]
      exact ih
  | char c t h ih =>
    rw [afterProse_char h]
    exact ih

/-- A code span lies inside its paragraph, which goes on behind it. -/
theorem prose_of_codeLength? {n : Nat} (h : codeLength? t = some n) :
    prose t = t.take n ++ prose (t.drop n) ∧ afterProse t = afterProse (t.drop n) := by
  induction t using break_induction generalizing n with
  | nil => cases h
  | brk t hbreak ih =>
    rw [codeLength?_break hbreak] at h
    split at h
    · cases h
    · next hblank =>
      obtain ⟨k, hk, rfl⟩ := Option.map_eq_some_iff.1 h
      obtain ⟨hprose, hafter⟩ := ih hk
      obtain ⟨hprose', hafter'⟩ := prose_break hbreak (by simpa using hblank)
      rw [Nat.add_comm, List.take_add, ← List.drop_drop, hprose', hprose, hafter', hafter]
      exact ⟨(List.append_assoc _ _ _).symm, rfl⟩
  | char c t hc ih =>
    by_cases hcode : c = '`'
    · subst hcode
      rw [codeLength?] at h
      obtain rfl := Option.some.inj h
      rw [prose_char hc, afterProse_char hc]
      exact ⟨rfl, rfl⟩
    · rw [codeLength?_char hc hcode] at h
      obtain ⟨k, hk, rfl⟩ := Option.map_eq_some_iff.1 h
      obtain ⟨hprose, hafter⟩ := ih hk
      rw [prose_char hc, afterProse_char hc, hprose, hafter]
      exact ⟨rfl, rfl⟩

/-- A line break keeps its length in front of anything but a line that ends the paragraph. -/
theorem breakLength_append (h : startsWith isNewline t = true) {v : Text}
    (hv : startsWith isBlank v = false) :
    startsWith isNewline (t.take (breakLength t) ++ v) = true ∧
      breakLength (t.take (breakLength t) ++ v) = breakLength t ∧
      (t.take (breakLength t) ++ v).drop (breakLength t) = v := by
  rcases break_cases h with ⟨u, rfl, hn⟩ | ⟨c, u, rfl, hc, hn, -⟩
  · rw [hn]
    exact ⟨rfl, rfl, rfl⟩
  · rw [hn]
    refine ⟨hc, breakLength_eq_one ?_, rfl⟩
    rintro w - rfl
    cases hv

theorem startsWith_prose {p : Char → Bool} (h : startsWith p t = false) :
    startsWith p (prose t) = false := by
  cases t with
  | nil => rfl
  | cons c t =>
    unfold prose
    cases proseLength (c :: t) with
    | zero => rfl
    | succ n => exact h

/-- A code span is found within the paragraph. -/
theorem codeLength?_prose (t : Text) : codeLength? (prose t) = codeLength? t := by
  induction t using break_induction with
  | nil => rfl
  | brk t h ih =>
    cases hblank : startsWith isBlank (t.drop (breakLength t)) with
    | true =>
      rw [(prose_end h hblank).1, codeLength?_break h, if_pos hblank]
      rfl
    | false =>
      have hprose : startsWith isBlank (prose (t.drop (breakLength t))) = false :=
        startsWith_prose hblank
      obtain ⟨hstart, hlength, hdrop⟩ := breakLength_append h hprose
      rw [(prose_break h hblank).1, codeLength?_break hstart, hlength, hdrop, ih, hprose,
        codeLength?_break h, hblank]
  | char c t hc ih =>
    rw [prose_char hc]
    by_cases hcode : c = '`'
    · subst hcode
      rw [codeLength?, codeLength?]
    · rw [codeLength?_char hc hcode, codeLength?_char hc hcode, ih]

end DocComment.Markup
