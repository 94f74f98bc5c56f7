import DocComment.Proofs.HtmlGrammar

/-!
# Escaping and reading escaped text

`Html.escape_reversible`: escaping replaces each special character by its entity and nothing else, no
special character is left, and reading the entities in a single pass gives the text back
(`Html.unescape`). A text that looks escaped is escaped once more, so that reading once does not read
too much.

The special characters can be searched among the bytes of the UTF-8 form of a text, where they are
single bytes that are part of no other character. `Html.escapeBytes?` copies the slices between them,
cut at their offsets, and fails where an offset lies inside a character; this never happens
(`Html.escapeBytes?_eq_some`).
-/

namespace DocComment

namespace Text

/-- The bytes of the UTF-8 form of a text. -/
def utf8 (t : Text) : List UInt8 := t.flatMap String.utf8EncodeChar

/-- The part of a text between two offsets, or `none` if one of them lies inside a character or
beyond the end. -/
def slice? (start stop : Nat) (t : Text) : Option Text :=
  (cutAt? start t).bind fun cut => (cutAt? (stop - start) cut.2).map (·.1)

theorem slice?_append (t u v : Text) : slice? (size t) (size t + size u) (t ++ (u ++ v)) = some u := by
  rw [slice?, cutAt?_size_append, Option.bind_some, Nat.add_sub_cancel_left, cutAt?_size_append,
    Option.map_some]

end Text

namespace Html

/-- Reads the entities of a text from the left to the right. All else stands for itself. -/
def unescape : Text → Text
  | '&' :: 'a' :: 'm' :: 'p' :: ';' :: t => '&' :: unescape t
  | '&' :: 'l' :: 't' :: ';' :: t => '<' :: unescape t
  | '&' :: 'g' :: 't' :: ';' :: t => '>' :: unescape t
  | '&' :: 'q' :: 'u' :: 'o' :: 't' :: ';' :: t => '"' :: unescape t
  | '&' :: '#' :: '3' :: '9' :: ';' :: t => '\'' :: unescape t
  | c :: t => c :: unescape t
  | [] => []

/-- A byte of the text `t` at the offset `i`, read when `out` has been written for what stands before
the offset `last`. A special byte ends the slice that begins there. -/
def escapeByte? (t : Text) : Nat × Text → UInt8 × Nat → Option (Nat × Text)
  | (last, out), (byte, i) =>
    let c := Char.ofUInt8 byte
    if isSpecial c then (Text.slice? last i t).map fun plain => (i + 1, out ++ plain ++ entity c)
    else some (last, out)

/-- A text as it stands in HTML, by the bytes of its UTF-8 form. -/
def escapeBytes? (t : Text) : Option Text :=
  ((Text.utf8 t).zipIdx.foldlM (escapeByte? t) (0, [])).bind fun written =>
    (Text.cutAt? written.1 t).map (written.2 ++ ·.2)

/-! ### Reading entities -/

theorem unescape_cons {c : Char} (h : c ≠ '&') (t : Text) : unescape (c :: t) = c :: unescape t := by
  rw [unescape.eq_def]
  split <;> simp_all

theorem unescape_entity_append (c : Char) (t : Text) :
    unescape (entity c ++ t) = c :: unescape t := by
  cases hc : isSpecial c with
  | true =>
    rcases cases_of_isSpecial hc with rfl | rfl | rfl | rfl | rfl <;> rfl
  | false =>
    have hne : c ≠ '&' := by
      rintro rfl
      cases hc
    rw [entity_eq_singleton hc, List.singleton_append, unescape_cons hne]

theorem unescape_escape (t : Text) : unescape (escape t) = t := by
  rw [escape_eq_flatMap]
  induction t with
  | nil => rfl
  | cons c t ih => rw [List.flatMap_cons, unescape_entity_append, ih]

/-! ### Special bytes -/

theorem toNat_lt_of_isSpecial {c : Char} (h : isSpecial c = true) : c.toNat < 128 := by
  rcases cases_of_isSpecial h with rfl | rfl | rfl | rfl | rfl <;> decide

/-- A special character is a single byte. -/
theorem exists_byte_of_isSpecial {c : Char} (h : isSpecial c = true) :
    ∃ byte, String.utf8EncodeChar c = [byte] ∧ Char.ofUInt8 byte = c := by
  rcases cases_of_isSpecial h with rfl | rfl | rfl | rfl | rfl <;> exact ⟨_, rfl, rfl⟩

theorem le_toNat_of_mem_utf8EncodeChar {c : Char} (h : 128 ≤ c.toNat) {byte : UInt8}
    (hbyte : byte ∈ String.utf8EncodeChar c) : 128 ≤ byte.toNat := by
  have hlarge : ∀ n, 128 ≤ n → n < 256 → 128 ≤ (UInt8.ofNat n).toNat := by
    intro n hle hlt
    rwa [UInt8.toNat_ofNat', Nat.mod_eq_of_lt hlt]
  have hval : ¬ c.val.toNat ≤ 127 := Nat.not_le_of_lt h
  simp only [String.utf8EncodeChar, if_neg hval] at hbyte
  split at hbyte
  · simp only [List.mem_cons, List.not_mem_nil, or_false] at hbyte
    rcases hbyte with rfl | rfl <;> exact hlarge _ (by omega) (by omega)
  · split at hbyte
    · simp only [List.mem_cons, List.not_mem_nil, or_false] at hbyte
      rcases hbyte with rfl | rfl | rfl <;> exact hlarge _ (by omega) (by omega)
    · simp only [List.mem_cons, List.not_mem_nil, or_false] at hbyte
      rcases hbyte with rfl | rfl | rfl | rfl <;> exact hlarge _ (by omega) (by omega)

/-- No byte of another character looks like a special one. -/
theorem isSpecial_of_mem_utf8EncodeChar {c : Char} (h : isSpecial c = false) {byte : UInt8}
    (hbyte : byte ∈ String.utf8EncodeChar c) : isSpecial (Char.ofUInt8 byte) = false := by
  have hvalue : (Char.ofUInt8 byte).toNat = byte.toNat := rfl
  rcases Nat.lt_or_ge c.toNat 128 with hlt | hge
  · have hone : String.utf8EncodeChar c = [UInt8.ofNat c.toNat] := if_pos (Nat.le_of_lt_succ hlt)
    rw [hone, List.mem_singleton] at hbyte
    have hsame : Char.ofUInt8 byte = c := by
      rw [← Char.toNat_inj, hvalue, hbyte, UInt8.toNat_ofNat', Nat.mod_eq_of_lt (by omega)]
    rwa [hsame]
  · have hlarge := le_toNat_of_mem_utf8EncodeChar hge hbyte
    by_contra hspecial
    have hsmall := toNat_lt_of_isSpecial (Bool.not_eq_false _ ▸ hspecial)
    omega

/-! ### Escaping by bytes -/

/-- What has been written when the beginning `before` of a text has been read: all but the plain
characters at its end. -/
def Written (before : Text) (state : Nat × Text) : Prop :=
  ∃ done held, before = done ++ held ∧ (∀ c ∈ held, isSpecial c = false) ∧
    state = (Text.size done, done.flatMap entity)

theorem foldlM_escapeByte?_plain (t : Text) (state : Nat × Text) {bytes : List (UInt8 × Nat)}
    (h : ∀ p ∈ bytes, isSpecial (Char.ofUInt8 p.1) = false) :
    bytes.foldlM (escapeByte? t) state = some state := by
  induction bytes with
  | nil => rfl
  | cons p bytes ih =>
    obtain ⟨hp, hbytes⟩ := List.forall_mem_cons.1 h
    have hstep : escapeByte? t state p = some state := by simp [escapeByte?, hp]
    rw [List.foldlM_cons, hstep]
    exact ih hbytes

/-- The bytes of one character. -/
theorem Written.char {before : Text} {state : Nat × Text} (h : Written before state) (c : Char)
    (after : Text) :
    ∃ state', ((String.utf8EncodeChar c).zipIdx (Text.size before)).foldlM
        (escapeByte? (before ++ c :: after)) state = some state' ∧
      Written (before ++ [c]) state' := by
  cases hc : isSpecial c with
  | true =>
    obtain ⟨done, held, rfl, hheld, rfl⟩ := h
    obtain ⟨byte, hbyte, hvalue⟩ := exists_byte_of_isSpecial hc
    have hslice := Text.slice?_append done held (c :: after)
    have hsize : c.utf8Size = 1 := by rw [← String.length_utf8EncodeChar, hbyte]; rfl
    refine ⟨_, ?_, done ++ held ++ [c], [], by simp, by simp, rfl⟩
    simp [hbyte, escapeByte?, hvalue, hc, hslice, hsize, flatMap_entity_eq_self hheld,
      Nat.add_assoc]
  | false =>
    refine ⟨state, foldlM_escapeByte?_plain _ _ fun p hp => ?_, ?_⟩
    · exact isSpecial_of_mem_utf8EncodeChar hc (List.fst_mem_of_mem_zipIdx hp)
    · obtain ⟨done, held, rfl, hheld, rfl⟩ := h
      refine ⟨done, held ++ [c], List.append_assoc done held [c], ?_, rfl⟩
      exact List.forall_mem_append.2 ⟨hheld, List.forall_mem_singleton.2 hc⟩

theorem Written.run {before : Text} {state : Nat × Text} (h : Written before state) (rest : Text) :
    ∃ state', ((Text.utf8 rest).zipIdx (Text.size before)).foldlM (escapeByte? (before ++ rest))
        state = some state' ∧ Written (before ++ rest) state' := by
  induction rest generalizing before state with
  | nil => exact ⟨state, rfl, by simpa using h⟩
  | cons c rest ih =>
    obtain ⟨middle, hchar, hmiddle⟩ := h.char c rest
    obtain ⟨last, hrest, hlast⟩ := ih hmiddle
    refine ⟨last, ?_, by simpa using hlast⟩
    have hutf8 : Text.utf8 (c :: rest) = String.utf8EncodeChar c ++ Text.utf8 rest := rfl
    rw [hutf8, List.zipIdx_append, List.foldlM_append, hchar]
    simpa using hrest

/-- The slices between the special bytes never begin or end inside a character. -/
theorem escapeBytes?_eq_some (t : Text) : escapeBytes? t = some (escape t) := by
  have hstart : Written [] (0, []) := ⟨[], [], rfl, by simp, rfl⟩
  obtain ⟨state, hrun, done, held, ht, hheld, rfl⟩ := hstart.run t
  have hcut := Text.cutAt?_size_append done held
  rw [List.nil_append, Text.size_nil] at hrun
  rw [List.nil_append] at ht
  rw [← ht] at hcut
  rw [escapeBytes?, hrun, Option.bind_some, hcut, Option.map_some, escape_eq_flatMap, ht,
    List.flatMap_append, flatMap_entity_eq_self hheld]

/-- Escaping is the replacement of the special characters by their entities. It is the same by bytes,
leaves no special character, and is undone by reading the entities. -/
theorem escape_reversible :
    (∀ t, escapeBytes? t = some (escape t)) ∧ (∀ t, escape t = t.flatMap entity) ∧
      (∀ t, IsEscaped (escape t)) ∧ (∀ t, unescape (escape t) = t) ∧
      Function.Injective escape ∧ ∀ t u, escape (t ++ u) = escape t ++ escape u :=
  ⟨escapeBytes?_eq_some, escape_eq_flatMap, isEscaped_escape, unescape_escape,
    Function.LeftInverse.injective unescape_escape, escape_append⟩

/-- What a reader finds is not read again. -/
example : unescape "&amp;lt;&#39".toList = "&lt;&#39".toList := by decide

end Html

end DocComment
