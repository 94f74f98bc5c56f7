import DocComment.Markup
import DocComment.Proofs.UrlLanguage
import Mathlib.Data.List.Basic

/-!
# A match ends with its line

A pattern that cannot take a character does not see what stands behind it (`Pattern.ends_append`).
The patterns of URLs and named links take no line breaks, so whether one matches, and how far, is
decided within a line (`Url.length?_append`, `Url.linkLength?_append`).
-/

namespace DocComment

namespace Pattern

/-- Every way to match takes a character at least. -/
def Strict (p : Pattern) : Prop := ∀ t, ∀ rest ∈ p.ends t, rest.length < t.length

/-- No way to match takes the character `c`, and repetitions go on. -/
inductive Avoids (c : Char) : Pattern → Prop
  | nothing : Avoids c nothing
  | char {p : Char → Bool} : p c = false → Avoids c (char p)
  | seq {p q : Pattern} : Avoids c p → Avoids c q → Avoids c (seq p q)
  | alt {p q : Pattern} : Avoids c p → Avoids c q → Avoids c (alt p q)
  | many {p : Pattern} : Avoids c p → p.Strict → Avoids c (many p)

theorem Strict.char (p : Char → Bool) : (char p).Strict := by
  intro t rest h
  cases t with
  | nil => simp [ends] at h
  | cons d t =>
    rw [ends] at h
    split at h
    · rw [List.mem_singleton.1 h]
      exact Nat.lt_succ_self t.length
    · simp at h

theorem Strict.seq {p : Pattern} (h : p.Strict) (q : Pattern) : (seq p q).Strict := by
  intro t rest hrest
  rw [ends, List.mem_flatMap] at hrest
  obtain ⟨u, hu, hrest⟩ := hrest
  exact Nat.lt_of_le_of_lt (isSuffix_of_mem_ends q u rest hrest).length_le (h t u hu)

/-- The bound on repetitions does not matter as long as it is not below the length. -/
theorem repeatEnds_append {step : Text → List Text} {v : Text}
    (hstep : ∀ t, step (t ++ v) = (step t).map (· ++ v))
    (hlt : ∀ t, ∀ rest ∈ step t, rest.length < t.length) :
    ∀ (n m : Nat) (t : Text), t.length ≤ n → t.length ≤ m →
      repeatEnds step n (t ++ v) = (repeatEnds step m t).map (· ++ v) := by
  have hnil : step [] = [] := List.eq_nil_iff_forall_not_mem.2 fun rest h => by
    have := hlt [] rest h
    simp at this
  intro n
  induction n with
  | zero =>
    intro m t hn _
    obtain rfl := List.length_eq_zero_iff.1 (Nat.le_zero.1 hn)
    cases m <;> simp [repeatEnds, hnil]
  | succ n ih =>
    intro m t hn hm
    cases m with
    | zero =>
      obtain rfl := List.length_eq_zero_iff.1 (Nat.le_zero.1 hm)
      have hv : step v = [] := by simpa [hnil] using hstep []
      simp [repeatEnds, hv]
    | succ m =>
      have hrest : ∀ rest ∈ step t, repeatEnds step n (rest ++ v) =
          (repeatEnds step m rest).map (· ++ v) := by
        intro rest h
        have := hlt t rest h
        exact ih m rest (by omega) (by omega)
      rw [repeatEnds, repeatEnds, hstep, List.flatMap_map, List.flatMap_congr hrest,
        List.map_append, List.map_flatMap]
      rfl

/-- What stands behind a character that the pattern avoids is left over by every way to match. -/
theorem ends_append {c : Char} {p : Pattern} (h : Avoids c p) (t u : Text) :
    p.ends (t ++ c :: u) = (p.ends t).map (· ++ c :: u) := by
  induction h generalizing t with
  | nothing => rfl
  | @char p hc =>
    cases t with
    | nil => simp [ends, hc]
    | cons d t =>
      rw [List.cons_append, ends, ends]
      split <;> rfl
  | @seq p q _ _ ihp ihq =>
    rw [ends, ends, ihp, List.flatMap_map, List.map_flatMap]
    exact List.flatMap_congr fun rest _ => ihq rest
  | alt _ _ ihp ihq => rw [ends, ends, ihp, ihq, List.map_append]
  | many _ hstrict ih =>
    rw [ends, ends]
    exact repeatEnds_append ih hstrict _ _ _ (by simp) (Nat.le_refl _)

theorem length?_append {c : Char} {p : Pattern} (h : Avoids c p) (t u : Text) :
    p.length? (t ++ c :: u) = p.length? t := by
  rw [length?_eq_head?, length?_eq_head?, ends_append h, List.head?_map, Option.map_map]
  refine congrArg (fun f => (p.ends t).head?.map f) (funext fun rest => ?_)
  simp only [Function.comp_apply, List.length_append]
  omega

namespace Avoids
variable {c : Char}

theorem word {w : Text} (h : c ∉ w) : Avoids c (word w) := by
  induction w with
  | nil => exact .nothing
  | cons d w ih =>
    rw [List.mem_cons, not_or] at h
    exact .seq (.char (beq_false_of_ne h.1)) (ih h.2)

theorem opt {p : Pattern} (h : Avoids c p) : Avoids c (opt p) := .alt h .nothing

theorem plus {p : Char → Bool} (h : p c = false) : Avoids c (plus (Pattern.char p)) :=
  .seq (.char h) (.many (.char h) (.char p))

theorem choice {ps : List Pattern} (h : ∀ p ∈ ps, Avoids c p) : Avoids c (choice ps) := by
  induction ps with
  | nil => exact .char rfl
  | cons p ps ih =>
    obtain ⟨hp, hps⟩ := List.forall_mem_cons.1 h
    exact .alt hp (ih hps)

end Avoids

end Pattern

namespace Url
open Pattern (Avoids)
variable {c : Char}

theorem avoids_runs {isChar isMark : Char → Bool} (hchar : isChar c = false)
    (hmark : isMark c = false) : Avoids c (runs isChar isMark) :=
  .seq (.plus hchar) (.many (.seq (.char hmark) (.plus hchar)) (.seq (.char isMark) _))

theorem eq_of_isNewline (h : isNewline c = true) : c = '\n' ∨ c = '\r' := by
  simpa [isNewline] using h

theorem avoids_scheme (h : isNewline c = true) : Avoids c scheme := by
  have hschemes : ∀ s ∈ ["ftp", "file", "gopher", "mailto", "news", "nntp", "telnet", "wais",
      "prospero"], c ∉ s.toList := by
    rcases eq_of_isNewline h with rfl | rfl <;> decide
  refine .choice (List.forall_mem_cons.2 ⟨.seq (.word ?_) (.opt (.word ?_)), ?_⟩)
  · rcases eq_of_isNewline h with rfl | rfl <;> decide
  · rcases eq_of_isNewline h with rfl | rfl <;> decide
  · intro p hp
    obtain ⟨s, hs, rfl⟩ := List.mem_map.1 hp
    exact .word (hschemes s hs)

theorem classes_of_isNewline (h : isNewline c = true) :
    isHostChar c = false ∧ isHostMark c = false ∧ isPathChar c = false ∧ isPathMark c = false ∧
      (c == '/') = false ∧ c ∉ "://".toList := by
  rcases eq_of_isNewline h with rfl | rfl <;> decide

theorem linkClasses_of_isNewline (h : isNewline c = true) :
    isNameChar c = false ∧ c ∉ "[".toList ∧ c ∉ "](".toList ∧ c ∉ ")".toList := by
  rcases eq_of_isNewline h with rfl | rfl <;> decide

theorem avoids_pattern (h : isNewline c = true) : Avoids c pattern := by
  obtain ⟨hhost, hhostMark, hpath, hpathMark, hslash, hmarks⟩ := classes_of_isNewline h
  refine .seq (avoids_scheme h) (.seq (.word hmarks) (.seq (avoids_runs hhost hhostMark)
    (.seq (.opt (.char hslash)) (.seq (avoids_runs hpath hpathMark) .nothing))))

theorem avoids_linkPattern (h : isNewline c = true) : Avoids c linkPattern := by
  obtain ⟨hname, hopen, hmiddle, hclose⟩ := linkClasses_of_isNewline h
  exact .seq (.word hopen) (.seq (.plus hname) (.seq (.word hmiddle) (.seq (avoids_pattern h)
    (.seq (.word hclose) .nothing))))

/-- What comes behind a line, if anything does, is a line break. -/
theorem length?_append (t : Text) {v : Text} (hv : v = [] ∨ Markup.startsWith isNewline v = true) :
    length? (t ++ v) = length? t := by
  cases v with
  | nil => rw [List.append_nil]
  | cons c v => exact Pattern.length?_append (avoids_pattern (hv.resolve_left (by simp))) t v

theorem linkLength?_append (t : Text) {v : Text}
    (hv : v = [] ∨ Markup.startsWith isNewline v = true) : linkLength? (t ++ v) = linkLength? t := by
  cases v with
  | nil => rw [List.append_nil]
  | cons c v => exact Pattern.length?_append (avoids_linkPattern (hv.resolve_left (by simp))) t v

theorem IsRuns.isChar_or_isMark {isChar isMark : Char → Bool} {t : Text}
    (h : IsRuns isChar isMark t) : ∀ c ∈ t, isChar c = true ∨ isMark c = true := by
  induction h with
  | run _ hchars => exact fun c hc => .inl (hchars c hc)
  | cons _ hchars hmark _ ih =>
    intro c hc
    rcases List.mem_append.1 hc with hc | hc
    · exact .inl (hchars c hc)
    · rcases List.mem_cons.1 hc with rfl | hc
      · exact .inr hmark
      · exact ih c hc

theorem IsRuns.newline_not_mem {isChar isMark : Char → Bool} {t : Text} (h : IsRuns isChar isMark t)
    (hc : isChar c = false) (hm : isMark c = false) : c ∉ t := by
  intro hmem
  rcases h.isChar_or_isMark c hmem with hchar | hmark
  · rw [hc] at hchar
    cases hchar
  · rw [hm] at hmark
    cases hmark

theorem IsUrl.newline_not_mem {u : Text} (h : IsUrl u) (hc : isNewline c = true) : c ∉ u := by
  obtain ⟨scheme, hscheme, host, slash, path, rfl, hhost, hslash, hpath⟩ := h
  have hschemes : ∀ s ∈ schemes, c ∉ s := by
    rcases eq_of_isNewline hc with rfl | rfl <;> decide
  obtain ⟨hhostChar, hhostMark, hpathChar, hpathMark, hslashChar, hmarks⟩ := classes_of_isNewline hc
  simp only [List.mem_append, not_or]
  refine ⟨⟨⟨⟨hschemes scheme hscheme, hmarks⟩, hhost.newline_not_mem hhostChar hhostMark⟩, ?_⟩,
    hpath.newline_not_mem hpathChar hpathMark⟩
  rcases hslash with rfl | rfl
  · exact List.not_mem_nil
  · simpa using hslashChar

theorem IsLink.newline_not_mem {t : Text} (h : IsLink t) (hc : isNewline c = true) : c ∉ t := by
  obtain ⟨name, url, rfl, hname, hurl⟩ := h
  obtain ⟨hnameChar, hopen, hmiddle, hclose⟩ := linkClasses_of_isNewline hc
  have hmem : c ∉ name := fun hmem => by
    rw [hname.2 c hmem] at hnameChar
    cases hnameChar
  have hurl := hurl.newline_not_mem hc
  simp only [linkText, List.mem_append, List.mem_cons, not_or]
  exact ⟨⟨⟨⟨List.ne_of_not_mem_cons hopen, hmem⟩, hmiddle⟩, hurl⟩, by simpa using hclose⟩

end Url

end DocComment
