import DocComment.Proofs.PrefixCode

/-!
# Texts between quotes

A text that is quoted stands between double quotes, and each of its characters is spelled as itself
or by an escape behind a backslash. Which escapes there are depends on the format (`Text.Escapes`),
and which of its spellings a character gets is left open (`Text.Quotation`). The quote and the
backslash are always escaped, and the escapes of a format can be told from each other. So the
spellings are a code (`Text.Spelling.prefixCode_form`), and a quotation determines the text in it, and
where it ends (`Text.Quotation.append_inj`).
-/

namespace DocComment.Text

/-- The escapes of a format: letters that stand for characters, and codes behind the letter `u`. -/
structure Escapes where
  /-- The characters with an escape of one letter, and their letters. -/
  letters : List (Char × Char)
  Code : Char → Text → Prop
  letter_inj : ∀ p ∈ letters, ∀ q ∈ letters, p.2 = q.2 → p = q
  letter_ne : ∀ p ∈ letters, p.2 ≠ 'u'
  /-- No code is that of another character or the beginning of another code. -/
  code_inj : ∀ {c d : Char} {v w : Text}, Code c v → Code d w → v <+: w → c = d ∧ v = w

/-- A way to write a character between quotes. -/
inductive Spelling (e : Escapes) where
  /-- The character itself, unless it is the quote or the backslash. -/
  | plain (c : Char) (h : c ≠ '"' ∧ c ≠ '\\')
  | letter (c l : Char) (h : (c, l) ∈ e.letters)
  | code (c : Char) (w : Text) (h : e.Code c w)

variable {e : Escapes}

namespace Spelling

def char : Spelling e → Char
  | plain c _ => c
  | letter c _ _ => c
  | code c _ _ => c

def form : Spelling e → Text
  | plain c _ => [c]
  | letter _ l _ => ['\\', l]
  | code _ w _ => '\\' :: 'u' :: w

/-- Whether a character is written with a backslash. -/
def IsEscape : Spelling e → Prop
  | plain _ _ => False
  | letter _ _ _ | code _ _ _ => True

theorem eq_of_form_isPrefix {x y : Spelling e} (hx : x.IsEscape) (hy : y.IsEscape)
    (h : x.form <+: y.form) : x = y := by
  cases x with
  | plain => cases hx
  | letter c l hc =>
    cases y with
    | plain => cases hy
    | letter d k hd =>
      obtain rfl : l = k := by simpa [form] using h
      obtain ⟨rfl, -⟩ := Prod.mk.inj (e.letter_inj _ hc _ hd rfl)
      rfl
    | code => exact absurd (by simpa [form] using h) (e.letter_ne _ hc)
  | code c v hv =>
    cases y with
    | plain => cases hy
    | letter d k hd =>
      obtain ⟨rfl, -⟩ : 'u' = k ∧ v = [] := by simpa [form] using h
      exact absurd rfl (e.letter_ne _ hd)
    | code d w hw =>
      obtain ⟨rfl, rfl⟩ := e.code_inj hv hw (by simpa [form] using h)
      rfl

/-- A spelling determines the character, and where it ends. -/
theorem prefixCode_form : PrefixCode (form : Spelling e → Text) := by
  refine .of_lead (· == '\\') IsEscape (fun x hx => ?_) (fun x hx => ?_)
    (fun x y hx hy h => ?_) fun x y => eq_of_form_isPrefix
  · cases x with
    | plain => cases hx
    | letter | code => exact ⟨_, _, rfl, rfl⟩
  · cases x with
    | plain c hc => exact ⟨c, rfl, beq_eq_false_iff_ne.2 hc.2⟩
    | letter | code => exact absurd trivial hx
  · cases x with
    | plain c hc =>
      cases y with
      | plain d hd =>
        obtain rfl : c = d := (List.cons.inj h).1
        rfl
      | letter | code => exact absurd trivial hy
    | letter | code => exact absurd trivial hx

end Spelling

open Spelling (form)

/-- The text `w` is `t` between double quotes, with each character spelled in one of its ways. -/
def Quotation (e : Escapes) (t w : Text) : Prop :=
  ∃ ss : List (Spelling e), ss.map Spelling.char = t ∧ w = '"' :: ss.flatMap form ++ ['"']

namespace Quotation
variable {t u v w r s : Text}

/-- A text that has been quoted can be told, and where the quotation ends, however its characters
are spelled. -/
theorem append_inj (hv : Quotation e t v) (hw : Quotation e u w) (h : v ++ r = w ++ s) :
    t = u ∧ r = s := by
  obtain ⟨xs, rfl, rfl⟩ := hv
  obtain ⟨ys, rfl, rfl⟩ := hw
  have hbody : xs.flatMap form ++ '"' :: r = ys.flatMap form ++ '"' :: s := by simpa using h
  have hstop : ∀ (x : Spelling e) t, ¬ (form x ++ t).head? = some '"' := by
    intro x t
    cases x with
    | plain c hc => simpa [form] using hc.1
    | letter | code => simp [form]
  obtain ⟨rfl, hrest⟩ :=
    Spelling.prefixCode_form.flatMap_append_inj (·.head? = some '"') hstop rfl rfl hbody
  exact ⟨rfl, (List.cons.inj hrest).2⟩

theorem head? (h : Quotation e t w) : w.head? = some '"' := by
  obtain ⟨ss, -, rfl⟩ := h
  rfl

/-- A text is quoted if each of its characters is spelled in one of its ways. -/
theorem of_spell {write : Char → Text}
    (h : ∀ c, ∃ x : Spelling e, x.char = c ∧ x.form = write c) (t : Text) :
    Quotation e t ('"' :: t.flatMap write ++ ['"']) := by
  choose spell hchar hform using h
  refine ⟨t.map spell, ?_, ?_⟩
  · rw [List.map_map, show Spelling.char ∘ spell = id from funext hchar, List.map_id]
  · rw [List.flatMap_map, funext hform]

end Quotation

end DocComment.Text
