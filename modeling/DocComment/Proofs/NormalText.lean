import DocComment.Comment.Normalize
import DocComment.Proofs.TrimmedLines

/-!
# Normal texts

A text is normal (`Text.IsNormal`) if its lines do not end with white space, no two empty lines come
one behind the other, and neither its first nor its last line is empty. `Comment.normalize` gives
normal texts only (`Comment.isNormal_normalize`), and joining the lines of a normal text gives it
back (`Text.IsNormal.joinLines_lines`).

The lines of such a text are built from the last one up (`Text.Spaced`): each line stands directly in
front of the next one or one empty line apart. `Comment.joinLines` makes the same choice for each
line that it writes.
-/

namespace DocComment

namespace Text

/-- A text as `Comment.normalize` gives it. -/
structure IsNormal (t : Text) : Prop where
  trimmed : ∀ l ∈ lines t, Trimmed l
  /-- Of two lines, one behind the other, one is not empty. -/
  apart : (lines t).IsChain fun l m => l ≠ [] ∨ m ≠ []
  first : t ≠ [] → (lines t).head? ≠ some []
  last : t ≠ [] → (lines t).getLast? ≠ some []

instance (t : Text) : Decidable (IsNormal t) :=
  decidable_of_iff ((∀ l ∈ lines t, Trimmed l) ∧
      ((lines t).IsChain fun l m => l ≠ [] ∨ m ≠ []) ∧
      (t ≠ [] → (lines t).head? ≠ some []) ∧ (t ≠ [] → (lines t).getLast? ≠ some []))
    ⟨fun ⟨trimmed, apart, first, last⟩ => ⟨trimmed, apart, first, last⟩,
      fun h => ⟨h.trimmed, h.apart, h.first, h.last⟩⟩

/-- The lines of a normal text that is not empty. -/
inductive Spaced : List Text → Prop
  | single {l : Text} : l ≠ [] → Trimmed l → Spaced [l]
  | next {l : Text} {ls : List Text} : l ≠ [] → Trimmed l → Spaced ls → Spaced (l :: ls)
  | apart {l : Text} {ls : List Text} : l ≠ [] → Trimmed l → Spaced ls → Spaced (l :: [] :: ls)

namespace Spaced
variable {ls : List Text}

theorem exists_cons (h : Spaced ls) : ∃ l tail, ls = l :: tail ∧ l ≠ [] ∧ Trimmed l := by
  cases h with
  | single hl ht | next hl ht _ | apart hl ht _ => exact ⟨_, _, rfl, hl, ht⟩

theorem ne_nil (h : Spaced ls) : ls ≠ [] := by
  obtain ⟨l, tail, rfl, -⟩ := h.exists_cons
  exact List.cons_ne_nil l tail

theorem trimmed (h : Spaced ls) : ∀ l ∈ ls, Trimmed l := by
  induction h with
  | single _ ht => simpa using ht
  | next _ ht _ ih => exact List.forall_mem_cons.2 ⟨ht, ih⟩
  | apart _ ht _ ih =>
    exact List.forall_mem_cons.2 ⟨ht, List.forall_mem_cons.2 ⟨by decide, ih⟩⟩

theorem isChain (h : Spaced ls) : ls.IsChain fun l m => l ≠ [] ∨ m ≠ [] := by
  induction h with
  | single _ _ => exact .singleton _
  | next hl _ hls ih =>
    obtain ⟨m, tail, rfl, -⟩ := hls.exists_cons
    exact .cons_cons (.inl hl) ih
  | apart hl _ hls ih =>
    obtain ⟨m, tail, rfl, hm, -⟩ := hls.exists_cons
    exact .cons_cons (.inl hl) (.cons_cons (.inr hm) ih)

theorem getLast?_ne (h : Spaced ls) : ls.getLast? ≠ some [] := by
  induction h with
  | single hl _ => simpa using hl
  | next _ _ hls ih =>
    obtain ⟨m, tail, rfl, -⟩ := hls.exists_cons
    rwa [List.getLast?_cons_cons]
  | apart _ _ hls ih =>
    obtain ⟨m, tail, rfl, -⟩ := hls.exists_cons
    rwa [List.getLast?_cons_cons, List.getLast?_cons_cons]

/-- Lines with the properties of a normal text, each one on its own. -/
theorem of_isChain : ∀ {ls : List Text}, ls ≠ [] → (∀ l ∈ ls, Trimmed l) →
    (ls.IsChain fun l m => l ≠ [] ∨ m ≠ []) → ls.head? ≠ some [] → ls.getLast? ≠ some [] →
    Spaced ls
  | [l], _, htrimmed, _, hfirst, _ => .single (by simpa using hfirst) (by simpa using htrimmed)
  | l :: (c :: m) :: ls, _, htrimmed, hchain, hfirst, hlast => by
    obtain ⟨hl, htail⟩ := List.forall_mem_cons.1 htrimmed
    obtain ⟨-, hchain⟩ := List.isChain_cons_cons.1 hchain
    rw [List.getLast?_cons_cons] at hlast
    exact .next (by simpa using hfirst) hl
      (of_isChain (List.cons_ne_nil _ _) htail hchain (by simp) hlast)
  | [l, []], _, _, _, _, hlast => absurd rfl hlast
  | l :: [] :: m :: ls, _, htrimmed, hchain, hfirst, hlast => by
    obtain ⟨hl, htail⟩ := List.forall_mem_cons.1 htrimmed
    obtain ⟨-, hchain⟩ := List.isChain_cons_cons.1 hchain
    obtain ⟨hm, hchain⟩ := List.isChain_cons_cons.1 hchain
    have hm : m ≠ [] := hm.resolve_left (absurd rfl)
    rw [List.getLast?_cons_cons, List.getLast?_cons_cons] at hlast
    exact .apart (by simpa using hfirst) hl
      (of_isChain (List.cons_ne_nil _ _) (List.forall_mem_cons.1 htail).2 hchain
        (by simpa using hm) hlast)

end Spaced

theorem isNormal_iff {t : Text} : IsNormal t ↔ t = [] ∨ Spaced (lines t) := by
  constructor
  · intro h
    by_cases ht : t = []
    · exact .inl ht
    · exact .inr (.of_isChain (lines_ne_nil t) h.trimmed h.apart (h.first ht) (h.last ht))
  · rintro (rfl | h)
    · decide
    · obtain ⟨l, tail, hl, hne, -⟩ := h.exists_cons
      refine ⟨h.trimmed, h.isChain, fun _ => ?_, fun _ => h.getLast?_ne⟩
      rw [hl]
      simpa using hne

end Text

/-! ### Joining lines -/

namespace Comment
open Text (Spaced unlines)

theorem joinLines_empty (started blank : Bool) {line : Text} (h : Text.trimEnd line = [])
    (ls : List Text) : joinLines started blank (line :: ls) = joinLines started started ls := by
  rw [joinLines]
  simp [h]

theorem joinLines_cons (started blank : Bool) {line : Text} (h : Text.trimEnd line ≠ [])
    (ls : List Text) : joinLines started blank (line :: ls) =
      separator started blank ++ Text.trimEnd line ++ joinLines true false ls := by
  rw [joinLines]
  simp [h]

theorem joinLines_blank (ls : List Text) :
    joinLines true true ls =
      if joinLines false false ls = [] then [] else '\n' :: '\n' :: joinLines false false ls := by
  induction ls with
  | nil => rfl
  | cons line ls ih =>
    by_cases h : Text.trimEnd line = []
    · rw [joinLines_empty _ _ h, joinLines_empty _ _ h, ih]
    · rw [joinLines_cons _ _ h, joinLines_cons _ _ h, if_neg (by simp [h])]
      rfl

/-- Behind a line that has been written the others are the same, and one or two line feeds come in
front of them. -/
theorem exists_separator (blank : Bool) (ls : List Text) :
    ∃ b, joinLines true blank ls =
      if joinLines false false ls = [] then []
        else separator true b ++ joinLines false false ls := by
  cases ls with
  | nil => exact ⟨false, rfl⟩
  | cons line ls =>
    by_cases h : Text.trimEnd line = []
    · refine ⟨true, ?_⟩
      rw [joinLines_empty _ _ h, joinLines_empty _ _ h, joinLines_blank]
      rfl
    · refine ⟨blank, ?_⟩
      rw [joinLines_cons _ _ h, joinLines_cons _ _ h, if_neg (by simp [h]), separator, separator]
      simp

/-- The lines that are written are spaced like those of a normal text. -/
theorem exists_spaced {ls : List Text} (h : ∀ l ∈ ls, '\n' ∉ l)
    (hne : joinLines false false ls ≠ []) :
    ∃ ms, Spaced ms ∧ (∀ m ∈ ms, '\n' ∉ m) ∧ joinLines false false ls = unlines ms := by
  induction ls with
  | nil => exact absurd rfl hne
  | cons line ls ih =>
    obtain ⟨hline, hls⟩ := List.forall_mem_cons.1 h
    by_cases hempty : Text.trimEnd line = []
    · rw [joinLines_empty _ _ hempty] at hne ⊢
      exact ih hls hne
    · have htrimmed := Text.trimmed_trimEnd line
      have hnewline : '\n' ∉ Text.trimEnd line := fun hmem =>
        hline ((List.rdropWhile_prefix isWhite line).subset hmem)
      obtain ⟨b, hb⟩ := exists_separator false ls
      rw [joinLines_cons _ _ hempty, hb]
      by_cases hrest : joinLines false false ls = []
      · refine ⟨[Text.trimEnd line], .single hempty htrimmed, by simpa using hnewline, ?_⟩
        rw [if_pos hrest, Text.unlines_singleton]
        simp [separator]
      · obtain ⟨ms, hms, hmem, hjoin⟩ := ih hls hrest
        rw [if_neg hrest, hjoin]
        cases b with
        | false =>
          refine ⟨Text.trimEnd line :: ms, .next hempty htrimmed hms,
            List.forall_mem_cons.2 ⟨hnewline, hmem⟩, ?_⟩
          rw [Text.unlines_cons _ hms.ne_nil]
          simp [separator]
        | true =>
          refine ⟨Text.trimEnd line :: [] :: ms, .apart hempty htrimmed hms,
            List.forall_mem_cons.2 ⟨hnewline, List.forall_mem_cons.2 ⟨by decide, hmem⟩⟩, ?_⟩
          rw [Text.unlines_cons _ (List.cons_ne_nil _ _), Text.unlines_cons _ hms.ne_nil]
          simp [separator]

/-- The normal text of a comment is normal. -/
theorem isNormal_normalize (comments : List Text) : Text.IsNormal (normalize comments) := by
  rw [Text.isNormal_iff, or_iff_not_imp_left]
  intro hne
  have hlines : ∀ l ∈ comments.flatMap fun raw => Text.lines (body raw), '\n' ∉ l := by
    intro l hl
    obtain ⟨raw, -, hl⟩ := List.mem_flatMap.1 hl
    exact Text.newline_not_mem_of_mem_lines hl
  obtain ⟨ms, hms, hmem, hjoin⟩ := exists_spaced hlines hne
  rw [normalize, hjoin, Text.lines_unlines hmem hms.ne_nil]
  exact hms

end Comment

namespace Text
open Comment (joinLines separator)

/-- In front of a line that is not empty the line feeds depend on what has been written only. -/
theorem Spaced.joinLines_started {ls : List Text} (h : Spaced ls) (blank : Bool) :
    joinLines true blank ls = separator true blank ++ joinLines false false ls := by
  obtain ⟨l, tail, rfl, hne, htrimmed⟩ := h.exists_cons
  have hl : trimEnd l ≠ [] := by rwa [trimmed_iff.1 htrimmed]
  rw [Comment.joinLines_cons _ _ hl, Comment.joinLines_cons _ _ hl, List.append_assoc]
  rfl

theorem Spaced.joinLines_eq {ls : List Text} (h : Spaced ls) :
    joinLines false false ls = unlines ls := by
  induction h with
  | single hne ht =>
    rw [Comment.joinLines_cons _ _ (by rwa [trimmed_iff.1 ht]), trimmed_iff.1 ht, unlines_singleton]
    simp [separator, joinLines]
  | next hne ht hls ih =>
    rw [Comment.joinLines_cons _ _ (by rwa [trimmed_iff.1 ht]), trimmed_iff.1 ht,
      hls.joinLines_started, ih, unlines_cons _ hls.ne_nil]
    rfl
  | apart hne ht hls ih =>
    rw [Comment.joinLines_cons _ _ (by rwa [trimmed_iff.1 ht]), trimmed_iff.1 ht,
      Comment.joinLines_empty _ _ rfl, hls.joinLines_started, ih,
      unlines_cons _ (List.cons_ne_nil _ _), unlines_cons _ hls.ne_nil]
    rfl

/-- Nothing is left to do for the lines of a normal text. -/
theorem IsNormal.joinLines_lines {t : Text} (h : IsNormal t) :
    joinLines false false (lines t) = t := by
  rcases isNormal_iff.1 h with rfl | hspaced
  · rfl
  · rw [hspaced.joinLines_eq, unlines_lines]

end Text

end DocComment
