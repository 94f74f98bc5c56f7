import DocComment.Proofs.LineBreaks

/-!
# Lines and the blocks they make

A text is cut into lines at line feeds, carriage returns, and both in this order. A line is empty,
indented or prose, by its first character. `Block.ofText` reads the blocks of a text off the kinds of
its lines, from the top: a paragraph is a run of prose lines, and a block of indented lines goes on
over empty ones.

A paragraph or a run of indented lines can also be measured character by character, by
`Markup.prose` and `Markup.indentedLength`. `Block.cut_prose` and `Block.cut_indented` say that
this gives the same blocks.
-/

namespace DocComment

structure Line where
  /-- What stands in front of the line break. -/
  content : Text
  /-- The line break, which the last line of a text does not have. -/
  brk : Text
deriving DecidableEq

namespace Line

inductive Kind where
  | empty
  | indented
  | prose
deriving DecidableEq

def kind (l : Line) : Kind :=
  match l.content with
  | [] => .empty
  | c :: _ => if isIndent c then .indented else .prose

def isProse (l : Line) : Bool := l.kind == .prose

def text (l : Line) : Text := l.content ++ l.brk

/-- The text of some lines. -/
def texts (ls : List Line) : Text := ls.flatMap text

/-- The text of some lines without the line break of the last one. -/
def body : List Line → Text
  | [] => []
  | [l] => l.content
  | l :: m :: ls => l.text ++ body (m :: ls)

/-- The lines of a text. -/
def ofText : Text → List Line
  | [] => [⟨[], []⟩]
  | '\r' :: '\n' :: t => ⟨[], ['\r', '\n']⟩ :: ofText t
  | c :: t =>
    if isNewline c then ⟨[], [c]⟩ :: ofText t
    else (ofText t).modifyHead fun l => ⟨c :: l.content, l.brk⟩

end Line

inductive Block.Kind where
  | paragraph
  | indented
deriving DecidableEq

/-- A paragraph or a run of indented lines. -/
structure Block where
  kind : Block.Kind
  /-- The offset of its first line. -/
  start : Nat
  text : Text
deriving DecidableEq

namespace Block

/-- The text of a paragraph: the last line break of its lines does not belong to it, unless nothing
comes behind. -/
def proseText (run rest : List Line) : Text :=
  if (Line.texts rest).isEmpty then Line.texts run else Line.body run

/-- The blocks of lines of which the first begins at the offset `n`. -/
def ofLines (n : Nat) : List Line → List Block
  | [] => []
  | l :: ls =>
    match l.kind with
    | .empty => ofLines (n + Text.size l.text) ls
    | .indented =>
      let run := l :: ls.takeWhile (!·.isProse)
      ⟨.indented, n, Line.texts run⟩ ::
        ofLines (n + Text.size (Line.texts run)) (ls.dropWhile (!·.isProse))
    | .prose =>
      let run := l :: ls.takeWhile (·.isProse)
      let rest := ls.dropWhile (·.isProse)
      ⟨.paragraph, n, proseText run rest⟩ :: ofLines (n + Text.size (Line.texts run)) rest
termination_by ls => ls.length
decreasing_by
  · exact Nat.lt_succ_self _
  · exact Nat.lt_succ_of_le (List.dropWhile_suffix _).length_le
  · exact Nat.lt_succ_of_le (List.dropWhile_suffix _).length_le

/-- The blocks of a text that begins at the offset `n`. -/
def cut (n : Nat) (t : Text) : List Block := ofLines n (Line.ofText t)

def ofText (t : Text) : List Block := cut 0 t

end Block

/-! ### The lines of a text -/

namespace Line

@[simp] theorem texts_cons (l : Line) (ls : List Line) : texts (l :: ls) = l.text ++ texts ls := rfl

theorem texts_singleton (l : Line) : texts [l] = l.text := List.append_nil l.text

theorem isProse_iff {l : Line} : l.isProse = true ↔ l.kind = .prose := beq_iff_eq

/-- The kind of the first line is decided by the first character. -/
theorem exists_ofText (t : Text) :
    ∃ l ls, ofText t = l :: ls ∧ l.isProse = Markup.startsWith (!isBlank ·) t ∧
      (l.kind = .indented ↔ Markup.startsWith isIndent t = true) := by
  fun_induction ofText t with
  | case1 => exact ⟨_, _, rfl, rfl, by simp [kind, Markup.startsWith]⟩
  | case2 t ih => exact ⟨_, _, rfl, rfl, by simp [kind, Markup.startsWith, isIndent]⟩
  | case3 c t _ hc ih =>
    have hindent : isIndent c = false := by
      simp only [isNewline, Bool.or_eq_true, beq_iff_eq] at hc
      rcases hc with rfl | rfl <;> decide
    exact ⟨_, _, rfl, by simp [isProse, kind, Markup.startsWith, isBlank, hc],
      by simp [kind, Markup.startsWith, hindent]⟩
  | case4 c t _ hc ih =>
    obtain ⟨l, ls, hl, -⟩ := ih
    rw [hl]
    refine ⟨_, _, rfl, ?_, ?_⟩
    · cases hindent : isIndent c <;> simp [isProse, kind, Markup.startsWith, isBlank, hc, hindent]
    · cases hindent : isIndent c <;> simp [kind, Markup.startsWith, hindent]

theorem ofText_break {t : Text} (h : Markup.startsWith isNewline t = true) :
    ofText t =
      ⟨[], t.take (Markup.breakLength t)⟩ :: ofText (t.drop (Markup.breakLength t)) := by
  rcases Markup.break_cases h with ⟨u, rfl, hn⟩ | ⟨c, u, rfl, hc, hn, hcr⟩
  · rw [hn, ofText]
    rfl
  · rw [hn, ofText, if_pos hc]
    · rfl
    · exact hcr

theorem ofText_char {c : Char} (h : isNewline c = false) (t : Text) :
    ofText (c :: t) = (ofText t).modifyHead fun l => ⟨c :: l.content, l.brk⟩ := by
  rw [ofText, if_neg (by simp [h])]
  rintro u rfl
  cases h

/-- No character is lost. -/
theorem texts_ofText (t : Text) : texts (ofText t) = t := by
  induction t using Markup.break_induction with
  | nil => rfl
  | brk t h ih =>
    rw [ofText_break h, texts_cons, ih]
    exact List.take_append_drop _ _
  | char c t h ih =>
    obtain ⟨l, ls, hl, -⟩ := exists_ofText t
    rw [hl] at ih
    rw [ofText_char h, hl]
    exact congrArg (c :: ·) ih

end Line

namespace Block
open Line (texts body)
open Markup (startsWith breakLength indentedLength prose afterProse)

@[simp] theorem ofLines_nil (n : Nat) : ofLines n [] = [] := by rw [ofLines]

theorem ofLines_empty (n : Nat) {l : Line} (h : l.kind = .empty) (ls : List Line) :
    ofLines n (l :: ls) = ofLines (n + Text.size l.text) ls := by
  rw [ofLines]
  simp only [h]

theorem ofLines_indented (n : Nat) {l : Line} (h : l.kind = .indented) (ls : List Line) :
    ofLines n (l :: ls) = ⟨.indented, n, texts (l :: ls.takeWhile (!·.isProse))⟩ ::
      ofLines (n + Text.size (texts (l :: ls.takeWhile (!·.isProse))))
        (ls.dropWhile (!·.isProse)) := by
  rw [ofLines]
  simp only [h]

theorem ofLines_prose (n : Nat) {l : Line} (h : l.kind = .prose) (ls : List Line) :
    ofLines n (l :: ls) =
      ⟨.paragraph, n, proseText (l :: ls.takeWhile (·.isProse)) (ls.dropWhile (·.isProse))⟩ ::
        ofLines (n + Text.size (texts (l :: ls.takeWhile (·.isProse))))
          (ls.dropWhile (·.isProse)) := by
  rw [ofLines]
  simp only [h]

@[simp] theorem cut_nil (n : Nat) : cut n [] = [] := by
  rw [cut, Line.ofText, ofLines_empty n rfl, ofLines_nil]

/-- A line break between blocks belongs to none. -/
theorem cut_break (n : Nat) {t : Text} (h : startsWith isNewline t = true) :
    cut n t = cut (n + Text.size (t.take (breakLength t))) (t.drop (breakLength t)) := by
  rw [cut, Line.ofText_break h, ofLines_empty n rfl]
  rfl

theorem cut_newline (n : Nat) {c : Char} (h : isNewline c = true) (t : Text) :
    cut n (c :: t) = cut (n + c.utf8Size) t := by
  have hcut := cut_break n (t := c :: t) h
  rcases Markup.break_cases (t := c :: t) h with ⟨u, heq, hn⟩ | ⟨d, u, heq, -, hn, -⟩
  · obtain ⟨rfl, rfl⟩ := List.cons.inj heq
    rw [hcut, hn, cut_break _ (t := '\n' :: u) rfl]
    rfl
  · rw [hcut, hn]
    rfl

/-- A run of indented lines, measured by lines and by characters. -/
theorem indented_run (t : Text) : ∀ l ls, Line.ofText t = l :: ls →
    texts (l :: ls.takeWhile (!·.isProse)) = t.take (indentedLength t) ∧
      ∀ n, ofLines n (ls.dropWhile (!·.isProse)) = cut n (t.drop (indentedLength t)) := by
  induction t using Markup.break_induction with
  | nil =>
    intro l ls h
    obtain ⟨rfl, rfl⟩ := List.cons.inj h
    exact ⟨rfl, fun n => by simp⟩
  | brk t h ih =>
    intro l ls hl
    rw [Line.ofText_break h] at hl
    obtain ⟨rfl, rfl⟩ := List.cons.inj hl
    obtain ⟨l, ls, hls, hprose, -⟩ := Line.exists_ofText (t.drop (breakLength t))
    obtain ⟨htexts, hrest⟩ := ih l ls hls
    rw [Markup.indentedLength_break h, hls]
    cases hl : l.isProse with
    | true =>
      have hblank : startsWith isBlank (t.drop (breakLength t)) = false :=
        Markup.startsWith_eq_false (hprose.symm.trans hl)
      rw [List.takeWhile_cons_of_neg (by simp [hl]), List.dropWhile_cons_of_neg (by simp [hl]),
        if_neg (by simp [hblank]), ← hls]
      exact ⟨List.append_nil _, fun n => rfl⟩
    | false =>
      have hlength : (if startsWith isBlank (t.drop (breakLength t)) then
          indentedLength (t.drop (breakLength t)) + breakLength t else breakLength t) =
          breakLength t + indentedLength (t.drop (breakLength t)) := by
        rcases Markup.eq_nil_or_startsWith (hprose.symm.trans hl) with hnil | hblank
        · rw [hnil]
          rfl
        · rw [if_pos hblank, Nat.add_comm]
      rw [List.takeWhile_cons_of_pos (by simp [hl]), List.dropWhile_cons_of_pos (by simp [hl]),
        hlength, List.take_add, ← List.drop_drop, ← htexts]
      exact ⟨rfl, hrest⟩
  | char c t h ih =>
    intro l ls hl
    obtain ⟨l', ls', hls, -⟩ := Line.exists_ofText t
    obtain ⟨htexts, hrest⟩ := ih l' ls' hls
    rw [Line.ofText_char h, hls] at hl
    obtain ⟨rfl, rfl⟩ := List.cons.inj hl
    rw [Markup.indentedLength_char h, List.take_succ_cons, List.drop_succ_cons, ← htexts]
    exact ⟨rfl, hrest⟩

theorem body_cons (c : Char) (l : Line) (ls : List Line) :
    body (⟨c :: l.content, l.brk⟩ :: ls) = c :: body (l :: ls) := by
  cases ls <;> rfl

theorem proseText_cons (c : Char) (l : Line) (ls rest : List Line) :
    proseText (⟨c :: l.content, l.brk⟩ :: ls) rest = c :: proseText (l :: ls) rest := by
  unfold proseText
  split
  · rfl
  · exact body_cons c l ls

theorem proseText_cons_cons (l m : Line) (ls rest : List Line) :
    proseText (l :: m :: ls) rest = l.text ++ proseText (m :: ls) rest := by
  unfold proseText
  split <;> rfl

/-- A paragraph, measured by lines and by characters. -/
theorem prose_run (t : Text) : ∀ l ls, Line.ofText t = l :: ls →
    proseText (l :: ls.takeWhile (·.isProse)) (ls.dropWhile (·.isProse)) = prose t ∧
      ∀ n, ofLines (n + Text.size (texts (l :: ls.takeWhile (·.isProse))))
        (ls.dropWhile (·.isProse)) = cut (n + Text.size (prose t)) (afterProse t) := by
  induction t using Markup.break_induction with
  | nil =>
    intro l ls h
    obtain ⟨rfl, rfl⟩ := List.cons.inj h
    exact ⟨rfl, fun n => by simp⟩
  | brk t h ih =>
    intro l ls hl
    rw [Line.ofText_break h] at hl
    obtain ⟨rfl, rfl⟩ := List.cons.inj hl
    obtain ⟨l, ls, hls, hprose, -⟩ := Line.exists_ofText (t.drop (breakLength t))
    obtain ⟨htext, hrest⟩ := ih l ls hls
    rw [hls]
    cases hl : l.isProse with
    | true =>
      obtain ⟨hp, ha⟩ := Markup.prose_break h (Markup.startsWith_eq_false (hprose.symm.trans hl))
      rw [List.takeWhile_cons_of_pos hl, List.dropWhile_cons_of_pos hl, proseText_cons_cons, htext,
        hp, ha]
      refine ⟨rfl, fun n => ?_⟩
      rw [Line.texts_cons, Text.size_append, Text.size_append, ← Nat.add_assoc, ← Nat.add_assoc]
      exact hrest (n + Text.size (t.take (breakLength t)))
    | false =>
      rw [List.takeWhile_cons_of_neg (by simp [hl]), List.dropWhile_cons_of_neg (by simp [hl]),
        ← hls]
      rcases Markup.eq_nil_or_startsWith (hprose.symm.trans hl) with hdrop | hblank
      · -- the line break ends the text
        obtain ⟨hp, ha⟩ := Markup.prose_break h (by rw [hdrop]; rfl)
        rw [hp, ha, hdrop, Markup.prose_nil, List.append_nil]
        exact ⟨Line.texts_singleton _, fun n => by rw [Line.texts_singleton]; rfl⟩
      · -- the next line ends the paragraph
        obtain ⟨hp, ha⟩ := Markup.prose_end h hblank
        have htexts : (texts (Line.ofText (t.drop (breakLength t)))).isEmpty = false := by
          rw [Line.texts_ofText]
          cases hdrop : t.drop (breakLength t) with
          | nil => rw [hdrop] at hblank; cases hblank
          | cons c u => rfl
        rw [hp, ha, proseText, if_neg (by simp [htexts])]
        exact ⟨rfl, fun n => by rw [Line.texts_singleton]; exact (cut_break n h).symm⟩
  | char c t h ih =>
    intro l ls hl
    obtain ⟨l', ls', hls, -⟩ := Line.exists_ofText t
    obtain ⟨htext, hrest⟩ := ih l' ls' hls
    rw [Line.ofText_char h, hls] at hl
    obtain ⟨rfl, rfl⟩ := List.cons.inj hl
    rw [Markup.prose_char h, Markup.afterProse_char h, proseText_cons, htext]
    refine ⟨rfl, fun n => ?_⟩
    have hrest := hrest (n + c.utf8Size)
    rw [Nat.add_assoc, Nat.add_assoc] at hrest
    exact hrest

/-- A text that begins with a space or a tab begins with a run of indented lines. -/
theorem cut_indented (n : Nat) {t : Text} (h : startsWith isIndent t = true) :
    cut n t = ⟨.indented, n, t.take (indentedLength t)⟩ ::
      cut (n + Text.size (t.take (indentedLength t))) (t.drop (indentedLength t)) := by
  obtain ⟨l, ls, hls, -, hindented⟩ := Line.exists_ofText t
  obtain ⟨htexts, hrest⟩ := indented_run t l ls hls
  rw [cut, hls, ofLines_indented n (hindented.2 h), htexts, hrest]

/-- A text that begins with neither a blank nor a line break begins with a paragraph. -/
theorem cut_prose (n : Nat) {t : Text} (h : startsWith (!isBlank ·) t = true) :
    cut n t = ⟨.paragraph, n, prose t⟩ :: cut (n + Text.size (prose t)) (afterProse t) := by
  obtain ⟨l, ls, hls, hprose, -⟩ := Line.exists_ofText t
  obtain ⟨htext, hrest⟩ := prose_run t l ls hls
  rw [cut, hls, ofLines_prose n (Line.isProse_iff.1 (hprose.trans h)), htext, hrest]

end Block

end DocComment
