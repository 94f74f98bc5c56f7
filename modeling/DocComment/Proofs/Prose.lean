import DocComment.Proofs.LineBreaks
import DocComment.Proofs.Search
import DocComment.Proofs.Stream
import DocComment.Proofs.UrlLocality

/-!
# The inline tokens of a paragraph

`Prose.lexemes` cuts the text of a paragraph into the kinds and texts of its tokens, character by
character and without a window, a cache or an offset. It is given the stretch held, last character
first, and whether that stretch is glued to a word in front of it. Nothing else of the surroundings
matters: in front of the paragraph's end, URLs, links and code spans are the same whatever comes
behind (`Prose.url?_prose`, `Prose.opened?_prose`).
-/

namespace DocComment

namespace Prose
open Markup (startsWith breakLength)
open Scanner (isSpecial)

/-- The lengths of the URL around the colon ahead, if there is one: in front of the colon, and
behind it. -/
def url? (glued : Bool) (held ahead : Text) : Option (Nat × Nat) :=
  let scheme := (held.takeWhile isWord).reverse
  if glued && held.all isWord then none
  else if Url.schemes.contains scheme then
    (Url.length? (scheme ++ ahead)).map fun n => (scheme.length, n - (scheme.length + 1))
  else none

/-- The kind of the token that begins with the marker `c`, if it opens one, and the number of
characters behind the marker that belong to it. -/
def opened? (c : Char) (t : Text) : Option (Token.Kind × Nat) :=
  if c = '`' then (Markup.codeLength? t).map fun n => (.code, n)
  else if c = '*' then
    if startsWith (· == '*') t then some (.doubleStar, 1) else some (.star, 0)
  else if c = '[' then (Url.linkLength? (c :: t)).map fun n => (.link, n - 1)
  else none

/-- The token of plain text that the stretch held makes. -/
def flush (held : Text) : List (Token.Kind × Text) :=
  if held.isEmpty then [] else [(.text, held.reverse)]

def endsInWord (t : Text) : Bool := startsWith isWord t.reverse

/-- A bound for the steps to come: a stretch that is held may become a token without reading on. -/
def work (held ahead : Text) : Nat := 2 * ahead.length + (if held.isEmpty then 0 else 1)

theorem work_lt {held held' ahead ahead' : Text} (h : ahead'.length < ahead.length) :
    work held' ahead' < work held ahead := by
  unfold work
  split <;> split <;> omega

/-- The kinds and texts of the tokens of a paragraph. -/
def lexemes (glued : Bool) (held : Text) : Text → List (Token.Kind × Text)
  | [] => flush held
  | c :: t =>
    if !isSpecial c then lexemes glued (c :: held) t
    else if c = ':' then
      match url? glued held (c :: t) with
      | none => lexemes glued (c :: held) t
      | some (scheme, n) =>
        flush (held.drop scheme) ++ (.url, (held.take scheme).reverse ++ c :: t.take n) ::
          lexemes (endsInWord (c :: t.take n)) [] (t.drop n)
    else if held.isEmpty then
      match opened? c t with
      | some (kind, n) =>
        (kind, c :: t.take n) ::
          lexemes (endsInWord (c :: t.take n)) [] (t.drop n)
      | none =>
        -- a marker that opens nothing, or a line break as a whole
        let n := breakLength (c :: t) - 1
        lexemes glued (c :: t.take n).reverse (t.drop n)
    else flush held ++ lexemes (startsWith isWord held) [] (c :: t)
termination_by ahead => work held ahead
decreasing_by
  · exact work_lt (Nat.lt_succ_self _)
  · exact work_lt (Nat.lt_succ_self _)
  · exact work_lt (Nat.lt_succ_of_le (List.drop_sublist _ _).length_le)
  · exact work_lt (Nat.lt_succ_of_le (List.drop_sublist _ _).length_le)
  · exact work_lt (Nat.lt_succ_of_le (List.drop_sublist _ _).length_le)
  · simp_all [work]

/-! ### One step at a time -/

section
variable {glued : Bool} {held : Text} {c : Char} {t : Text}

@[simp] theorem flush_nil : flush [] = [] := rfl

theorem flush_of_ne_nil (h : held ≠ []) : flush held = [(.text, held.reverse)] := by
  simp [flush, h]

theorem lexemes_nil (glued : Bool) (held : Text) : lexemes glued held [] = flush held := by
  rw [lexemes]

theorem lexemes_plain (h : isSpecial c = false) :
    lexemes glued held (c :: t) = lexemes glued (c :: held) t := by
  rw [lexemes, if_pos (by simp [h])]

theorem lexemes_append {m : Text} (h : ∀ c ∈ m, isSpecial c = false) :
    lexemes glued held (m ++ t) = lexemes glued (m.reverse ++ held) t := by
  induction m generalizing held with
  | nil => rfl
  | cons c m ih =>
    obtain ⟨hc, hm⟩ := List.forall_mem_cons.1 h
    rw [List.cons_append, lexemes_plain hc, ih hm, List.reverse_cons, List.append_assoc]
    rfl

theorem lexemes_colon (h : url? glued held (':' :: t) = none) :
    lexemes glued held (':' :: t) = lexemes glued (':' :: held) t := by
  rw [lexemes, if_neg (by decide), if_pos rfl]
  simp only [h]

theorem lexemes_url {scheme n : Nat} (h : url? glued held (':' :: t) = some (scheme, n)) :
    lexemes glued held (':' :: t) =
      flush (held.drop scheme) ++ (.url, (held.take scheme).reverse ++ ':' :: t.take n) ::
        lexemes (endsInWord (':' :: t.take n)) [] (t.drop n) := by
  rw [lexemes, if_neg (by decide), if_pos rfl]
  simp only [h]

/-- What is held becomes a token in front of a marker, a line break or the end. -/
theorem lexemes_held (ht : startsWith (fun c => !isSpecial c || c == ':') t = false)
    (hheld : held ≠ []) :
    lexemes glued held t = (.text, held.reverse) :: lexemes (startsWith isWord held) [] t := by
  cases t with
  | nil => rw [lexemes_nil, lexemes_nil, flush_of_ne_nil hheld, flush_nil]
  | cons c t =>
    obtain ⟨hspecial, hcolon⟩ : isSpecial c = true ∧ c ≠ ':' := by simpa [startsWith] using ht
    rw [lexemes, if_neg (by simp [hspecial]), if_neg hcolon, if_neg (by simpa using hheld),
      flush_of_ne_nil hheld]
    rfl

theorem lexemes_opened {kind : Token.Kind} {n : Nat} (hspecial : isSpecial c = true)
    (hcolon : c ≠ ':') (h : opened? c t = some (kind, n)) :
    lexemes glued [] (c :: t) =
      (kind, c :: t.take n) ::
        lexemes (endsInWord (c :: t.take n)) [] (t.drop n) := by
  rw [lexemes, if_neg (by simp [hspecial]), if_neg hcolon, if_pos List.isEmpty_nil]
  simp only [h]

theorem lexemes_unopened (hspecial : isSpecial c = true) (hcolon : c ≠ ':')
    (h : opened? c t = none) :
    lexemes glued [] (c :: t) =
      lexemes glued ((c :: t).take (breakLength (c :: t))).reverse
        ((c :: t).drop (breakLength (c :: t))) := by
  obtain ⟨n, hn⟩ := Nat.exists_eq_add_one.2 (Scanner.breakLength_pos (c :: t))
  rw [lexemes, if_neg (by simp [hspecial]), if_neg hcolon, if_pos List.isEmpty_nil]
  simp only [h, hn, Nat.add_sub_cancel, List.take_succ_cons, List.drop_succ_cons]

end

/-! ### What the lexemes are -/

theorem flatMap_flush (held : Text) : (flush held).flatMap (·.2) = held.reverse := by
  by_cases h : held = []
  · rw [h]
    rfl
  · simp [flush_of_ne_nil h]

/-- The lexemes are the text of the paragraph. -/
theorem flatMap_lexemes (glued : Bool) (held ahead : Text) :
    (lexemes glued held ahead).flatMap (·.2) = held.reverse ++ ahead := by
  fun_induction lexemes glued held ahead with
  | case1 glued held => simp [flatMap_flush]
  | case2 glued held c t _ ih => simp [ih]
  | case3 glued held t _ hurl ih => simp [ih]
  | case4 glued held t scheme n _ hurl ih =>
    have hheld := congrArg List.reverse (List.take_append_drop scheme held)
    rw [List.reverse_append] at hheld
    rw [List.flatMap_append, List.flatMap_cons, flatMap_flush, ih, ← hheld]
    simp
  | case5 glued held c t _ _ hheld kind n hopened ih =>
    rw [List.isEmpty_iff.1 hheld, List.flatMap_cons, ih]
    simp
  | case6 glued held c t _ _ hheld hopened n ih =>
    rw [List.isEmpty_iff.1 hheld, ih]
    simp
  | case7 glued held c t _ _ hheld ih =>
    rw [List.flatMap_append, flatMap_flush, ih]
    rfl

theorem isInline_flush (held : Text) : ∀ l ∈ flush held, l.1.isInline = true := by
  intro l hl
  unfold flush at hl
  split at hl
  · cases hl
  · obtain rfl := List.mem_singleton.1 hl
    rfl

theorem isInline_of_opened? {c : Char} {t : Text} {kind : Token.Kind} {n : Nat}
    (h : opened? c t = some (kind, n)) : kind.isInline = true := by
  unfold opened? at h
  split at h
  · obtain ⟨k, -, heq⟩ := Option.map_eq_some_iff.1 h
    cases heq
    rfl
  · split at h
    · split at h <;> cases h <;> rfl
    · split at h
      · obtain ⟨k, -, heq⟩ := Option.map_eq_some_iff.1 h
        cases heq
        rfl
      · cases h

theorem isInline_lexemes (glued : Bool) (held ahead : Text) :
    ∀ l ∈ lexemes glued held ahead, l.1.isInline = true := by
  fun_induction lexemes glued held ahead with
  | case1 glued held => exact isInline_flush held
  | case2 glued held c t _ ih => exact ih
  | case3 glued held t _ hurl ih => exact ih
  | case4 glued held t scheme n _ hurl ih =>
    exact List.forall_mem_append.2 ⟨isInline_flush _, List.forall_mem_cons.2 ⟨rfl, ih⟩⟩
  | case5 glued held c t _ _ hheld kind n hopened ih =>
    exact List.forall_mem_cons.2 ⟨isInline_of_opened? hopened, ih⟩
  | case6 glued held c t _ _ hheld hopened n ih => exact ih
  | case7 glued held c t _ _ hheld ih =>
    exact List.forall_mem_append.2 ⟨isInline_flush held, ih⟩

/-! ### Only the paragraph matters -/

open Markup (prose afterProse)

theorem url?_prose (glued : Bool) (held t : Text) :
    url? glued held (':' :: prose t) = url? glued held (':' :: t) := by
  have hlength : ∀ scheme, Url.length? (scheme ++ ':' :: prose t) =
      Url.length? (scheme ++ ':' :: t) := by
    intro scheme
    rw [← Url.length?_append (scheme ++ ':' :: prose t) (Markup.afterProse_cases t),
      List.append_assoc, List.cons_append, Markup.prose_append_afterProse]
  simp only [url?, hlength]

theorem opened?_prose (c : Char) (t : Text) : opened? c (prose t) = opened? c t := by
  have hlink : Url.linkLength? (c :: prose t) = Url.linkLength? (c :: t) := by
    rw [← Url.linkLength?_append (c :: prose t) (Markup.afterProse_cases t), List.cons_append,
      Markup.prose_append_afterProse]
  have hstar : startsWith (· == '*') (prose t) = startsWith (· == '*') t := by
    cases h : startsWith (· == '*') t with
    | false => exact Markup.startsWith_prose h
    | true =>
      cases t with
      | nil => cases h
      | cons d t =>
        obtain rfl : d = '*' := beq_iff_eq.1 h
        rw [Markup.prose_char rfl]
        rfl
  simp only [opened?, hlink, hstar, Markup.codeLength?_prose]

end Prose

end DocComment
