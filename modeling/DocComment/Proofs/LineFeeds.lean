import DocComment.Proofs.BlockStructure
import DocComment.Proofs.TrimmedLines

/-!
# Line feeds in place of line breaks

`Markup.toFeeds` writes every line break as a line feed. A line break of two characters becomes one
character, so lengths change, and a text may be cut only where no line break lies across
(`Markup.Divides`). `Markup.Shrinks t n m` says that the first `n` characters of `t` are whole line
breaks and other characters, and become `m` characters.

Runs of indented lines and code spans shrink to runs of indented lines and code spans
(`Markup.shrinks_indentedLength`, `Markup.rel_codeLength?`). URLs and named links have no line
breaks and stay as they are (`Url.length?_toFeeds`, `Url.linkLength?_toFeeds`).
-/

namespace DocComment

namespace Markup

/-- Writes every line break as a line feed. -/
def toFeeds : Text → Text
  | [] => []
  | '\r' :: '\n' :: t => '\n' :: toFeeds t
  | c :: t => (if c = '\r' then '\n' else c) :: toFeeds t

/-- No line break lies across the place where the two texts meet. -/
def Divides (x y : Text) : Prop := x.getLast? = some '\r' → y.head? ≠ some '\n'

variable {t u v w x y z : Text} {c : Char}

/-! ### Line breaks and other characters -/

@[simp] theorem toFeeds_nil : toFeeds [] = [] := rfl

theorem toFeeds_eq_nil_iff : toFeeds t = [] ↔ t = [] := by
  unfold toFeeds
  split <;> simp

theorem toFeeds_break (h : startsWith isNewline t = true) :
    toFeeds t = '\n' :: toFeeds (t.drop (breakLength t)) := by
  rcases break_cases h with ⟨u, rfl, hn⟩ | ⟨c, u, rfl, hc, hn, hcr⟩
  · rw [hn]
    rfl
  · rw [hn, toFeeds]
    · rcases Url.eq_of_isNewline hc with rfl | rfl <;> rfl
    · exact hcr

theorem toFeeds_char (h : isNewline c = false) (t : Text) : toFeeds (c :: t) = c :: toFeeds t := by
  have hc : c ≠ '\r' := by
    rintro rfl
    cases h
  rw [toFeeds, if_neg hc]
  exact fun _ hcr => absurd hcr hc

theorem toFeeds_take_breakLength (h : startsWith isNewline t = true) :
    toFeeds (t.take (breakLength t)) = ['\n'] := by
  rcases break_cases h with ⟨u, rfl, hn⟩ | ⟨c, u, rfl, hc, hn, -⟩
  · rw [hn]
    rfl
  · rw [hn]
    rcases Url.eq_of_isNewline hc with rfl | rfl <;> rfl

theorem toFeeds_append_left (h : ∀ c ∈ v, isNewline c = false) (t : Text) :
    toFeeds (v ++ t) = v ++ toFeeds t := by
  induction v with
  | nil => rfl
  | cons c v ih =>
    obtain ⟨hc, hv⟩ := List.forall_mem_cons.1 h
    rw [List.cons_append, toFeeds_char hc, ih hv, List.cons_append]

theorem toFeeds_eq_self (h : ∀ c ∈ v, isNewline c = false) : toFeeds v = v := by
  simpa using toFeeds_append_left h []

theorem startsWith_eq_false_of_forall {p : Char → Bool} (h : ∀ c ∈ t, p c = false) :
    startsWith p t = false := by
  cases t with
  | nil => rfl
  | cons c t => exact h c List.mem_cons_self

/-- A class that does not tell line breaks apart is the same in front. -/
theorem startsWith_toFeeds {p : Char → Bool} (hp : p '\r' = p '\n') (t : Text) :
    startsWith p (toFeeds t) = startsWith p t := by
  cases t with
  | nil => rfl
  | cons c t =>
    cases hc : isNewline c with
    | false =>
      rw [toFeeds_char hc]
      rfl
    | true =>
      rw [toFeeds_break (t := c :: t) hc]
      rcases Url.eq_of_isNewline hc with rfl | rfl
      · rfl
      · exact hp.symm

/-! ### Where a text may be cut -/

namespace Divides

theorem nil_left (y : Text) : Divides [] y := nofun

theorem nil_right (x : Text) : Divides x [] := fun _ => nofun

theorem append_left (h : Divides x (y ++ z)) (h' : Divides y z) : Divides (x ++ y) z := by
  rcases List.eq_nil_or_concat' y with rfl | ⟨y, c, rfl⟩
  · rwa [List.append_nil]
  · simpa [Divides] using h'

theorem left (h : Divides x (y ++ z)) : Divides x y := by
  cases y with
  | nil => exact nil_right x
  | cons c y => exact h

theorem right (h : Divides (x ++ y) z) : Divides y z := by
  intro hlast
  exact h (by rw [List.getLast?_append, hlast, Option.some_or])

/-- A text that does not end in a line break. -/
theorem of_last (h : startsWith isNewline x.reverse = false) (y : Text) : Divides x y := by
  intro hlast
  rw [← List.head?_reverse] at hlast
  rw [startsWith, hlast] at h
  cases h

theorem of_forall (h : ∀ c ∈ x, isNewline c = false) (y : Text) : Divides x y :=
  of_last (startsWith_eq_false_of_forall fun c hc => h c (List.mem_reverse.1 hc)) y

/-- A text that does not begin with a line break. -/
theorem of_head (x : Text) (h : startsWith isNewline y = false) : Divides x y := by
  intro _ hhead
  rw [startsWith, hhead] at h
  cases h

end Divides

theorem divides_break (h : startsWith isNewline t = true) :
    Divides (t.take (breakLength t)) (t.drop (breakLength t)) := by
  rcases break_cases h with ⟨u, rfl, hn⟩ | ⟨c, u, rfl, hc, hn, hcr⟩
  · rw [hn]
    nofun
  · rw [hn]
    intro hlast hhead
    obtain rfl : c = '\r' := by simpa using hlast
    cases u with
    | nil => cases hhead
    | cons d u => exact hcr u rfl (by rw [Option.some.inj hhead])

theorem toFeeds_append (h : Divides x y) : toFeeds (x ++ y) = toFeeds x ++ toFeeds y := by
  fun_induction toFeeds x with
  | case1 => rfl
  | case2 t ih => exact congrArg ('\n' :: ·) (ih (h.right (x := ['\r', '\n'])))
  | case3 c t hcr ih =>
    rw [List.cons_append, toFeeds, ih (h.right (x := [c])), List.cons_append]
    -- a line feed behind `c` would be in `t`, or at the place where the texts meet
    intro u hc hu
    cases t with
    | nil => exact h (by rw [hc]; rfl) (by rw [show y = '\n' :: u from hu]; rfl)
    | cons d t => exact hcr t hc (by rw [(List.cons.inj hu).1])

/-- A class that does not tell line breaks apart is the same at the end. -/
theorem startsWith_reverse_toFeeds {p : Char → Bool} (hp : p '\r' = p '\n') (t : Text) :
    startsWith p (toFeeds t).reverse = startsWith p t.reverse := by
  rcases List.eq_nil_or_concat' t with rfl | ⟨u, c, rfl⟩
  · rfl
  · by_cases h : Divides u [c]
    · obtain ⟨d, hd⟩ : ∃ d, toFeeds [c] = [d] :=
        ⟨if c = '\r' then '\n' else c, by rw [toFeeds] <;> simp⟩
      have hp := startsWith_toFeeds hp [c]
      rw [toFeeds_append h, hd, List.reverse_concat', List.reverse_concat']
      rwa [hd] at hp
    · -- a line break of two characters at the end
      obtain ⟨hlast, rfl⟩ : u.getLast? = some '\r' ∧ c = '\n' := by simpa [Divides] using h
      obtain ⟨v, rfl⟩ := List.getLast?_eq_some_iff.1 hlast
      have hdivides : Divides v ['\r', '\n'] := fun _ => by simp
      rw [List.append_assoc, List.singleton_append, toFeeds_append hdivides, List.reverse_append]
      simp [startsWith, toFeeds]

/-- The first `n` characters of a text are whole line breaks and other characters, and become the
first `m` characters. -/
inductive Shrinks : Text → Nat → Nat → Prop
  | zero (t : Text) : Shrinks t 0 0
  | brk {t : Text} {n m : Nat} : startsWith isNewline t = true →
      Shrinks (t.drop (breakLength t)) n m → Shrinks t (n + breakLength t) (m + 1)
  | char {c : Char} {t : Text} {n m : Nat} : isNewline c = false → Shrinks t n m →
      Shrinks (c :: t) (n + 1) (m + 1)

namespace Shrinks
variable {n m : Nat}

theorem divides (h : Shrinks t n m) : Divides (t.take n) (t.drop n) := by
  induction h with
  | zero t => exact .nil_left t
  | brk hbreak _ ih =>
    rw [Nat.add_comm, List.take_add, ← List.drop_drop]
    refine .append_left ?_ ih
    rw [List.take_append_drop]
    exact divides_break hbreak
  | @char c t n m hc _ ih =>
    rw [List.take_succ_cons, List.drop_succ_cons, ← List.singleton_append]
    exact .append_left (.of_last (x := [c]) hc _) ih

theorem length_toFeeds (h : Shrinks t n m) : (toFeeds (t.take n)).length = m := by
  induction h with
  | zero t => rfl
  | @brk t n m hbreak hrest ih =>
    have hdivides : Divides (t.take (breakLength t)) ((t.drop (breakLength t)).take n) := by
      refine Divides.left (z := (t.drop (breakLength t)).drop n) ?_
      rw [List.take_append_drop]
      exact divides_break hbreak
    rw [Nat.add_comm n, List.take_add, toFeeds_append hdivides, toFeeds_take_breakLength hbreak,
      List.length_append, ih, Nat.add_comm]
    rfl
  | @char c t n m hc _ ih => rw [List.take_succ_cons, toFeeds_char hc, List.length_cons, ih]

theorem toFeeds_split (h : Shrinks t n m) :
    (toFeeds t).take m = toFeeds (t.take n) ∧ (toFeeds t).drop m = toFeeds (t.drop n) := by
  have hsplit := toFeeds_append h.divides
  rw [List.take_append_drop] at hsplit
  rw [hsplit, List.take_left' h.length_toFeeds, List.drop_left' h.length_toFeeds]
  exact ⟨rfl, rfl⟩

/-- Without line breaks nothing changes. -/
theorem append (h : ∀ c ∈ v, isNewline c = false) (w : Text) :
    Shrinks (v ++ w) v.length v.length := by
  induction v with
  | nil => exact zero w
  | cons c v ih =>
    obtain ⟨hc, hv⟩ := List.forall_mem_cons.1 h
    exact char hc (ih hv)

end Shrinks

/-! ### Indented lines and code spans -/

/-- The line break in front, with line feeds. -/
theorem break_toFeeds (h : startsWith isNewline t = true) :
    startsWith isNewline (toFeeds t) = true ∧ breakLength (toFeeds t) = 1 ∧
      (toFeeds t).drop 1 = toFeeds (t.drop (breakLength t)) := by
  rw [toFeeds_break h]
  exact ⟨rfl, rfl, rfl⟩

theorem shrinks_indentedLength (t : Text) :
    Shrinks t (indentedLength t) (indentedLength (toFeeds t)) := by
  induction t using break_induction with
  | nil => exact .zero []
  | brk t h ih =>
    obtain ⟨hstart, hlength, hdrop⟩ := break_toFeeds h
    rw [indentedLength_break h, indentedLength_break hstart, hlength, hdrop,
      startsWith_toFeeds rfl]
    split
    · exact .brk h ih
    · simpa using Shrinks.brk h (.zero _)
  | char c t h ih =>
    rw [toFeeds_char h, indentedLength_char h, indentedLength_char h]
    exact .char h ih

theorem rel_map {α β γ δ : Type} {r : α → β → Prop} {s : γ → δ → Prop} {f : α → γ} {g : β → δ}
    {a : Option α} {b : Option β} (h : Option.Rel r a b) (hs : ∀ x y, r x y → s (f x) (g y)) :
    Option.Rel s (a.map f) (b.map g) := by
  cases h with
  | some h => exact .some (hs _ _ h)
  | none => exact .none

/-- A code span is found in both texts or in none. -/
theorem rel_codeLength? (t : Text) :
    Option.Rel (Shrinks t) (codeLength? t) (codeLength? (toFeeds t)) := by
  induction t using break_induction with
  | nil => exact .none
  | brk t h ih =>
    obtain ⟨hstart, hlength, hdrop⟩ := break_toFeeds h
    rw [codeLength?_break h, codeLength?_break hstart, hlength, hdrop, startsWith_toFeeds rfl]
    split
    · exact .none
    · exact rel_map ih fun _ _ => .brk h
  | char c t h ih =>
    rw [toFeeds_char h]
    by_cases hcode : c = '`'
    · subst hcode
      rw [codeLength?, codeLength?]
      exact .some (.char h (.zero t))
    · rw [codeLength?_char h hcode, codeLength?_char h hcode]
      exact rel_map ih fun _ _ => .char h

/-- What is decided within the first line is decided in the same way. -/
theorem apply_toFeeds {α : Type} {f : Text → α}
    (hf : ∀ t v, v = [] ∨ startsWith isNewline v = true → f (t ++ v) = f t) (t : Text) :
    f (toFeeds t) = f t := by
  have hline : ∀ c ∈ t.takeWhile (!isNewline ·), isNewline c = false := by
    intro c hc
    simpa using List.mem_takeWhile_imp hc
  have hrest : t.dropWhile (!isNewline ·) = [] ∨
      startsWith isNewline (t.dropWhile (!isNewline ·)) = true :=
    eq_nil_or_startsWith (startsWith_dropWhile _ t)
  have hrest' : toFeeds (t.dropWhile (!isNewline ·)) = [] ∨
      startsWith isNewline (toFeeds (t.dropWhile (!isNewline ·))) = true := by
    refine hrest.imp (fun hnil => ?_) fun hstart => (break_toFeeds hstart).1
    rw [hnil, toFeeds_nil]
  rw [← List.takeWhile_append_dropWhile (p := (!isNewline ·)) (l := t), toFeeds_append_left hline,
    hf _ _ hrest, hf _ _ hrest']

end Markup

namespace Url

theorem length?_toFeeds (t : Text) : length? (Markup.toFeeds t) = length? t :=
  Markup.apply_toFeeds (fun t _ => length?_append t) t

theorem linkLength?_toFeeds (t : Text) : linkLength? (Markup.toFeeds t) = linkLength? t :=
  Markup.apply_toFeeds (fun t _ => linkLength?_append t) t

end Url

end DocComment
