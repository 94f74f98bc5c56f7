import DocComment.Token

/-!
# Parts of a text and their offsets

`Text.StandsAt text n part`: `part` is found in `text` at the byte offset `n`. The functions that
cut texts at offsets (`cutAt?`, `charsWithin`, `Span.slice`) are read off from a division of the
text into parts, so later proofs divide texts and do not count bytes. Offsets of texts with fewer
than `UInt32.size` bytes survive the way through 32-bit numbers.
-/

namespace DocComment

namespace Text

theorem length_le_size (t : Text) : t.length ≤ size t := by
  induction t with
  | nil => exact Nat.le_refl 0
  | cons c t ih =>
    have := Char.utf8Size_pos c
    rw [List.length_cons, size_cons]
    omega

theorem size_pos {t : Text} (h : t ≠ []) : 0 < size t :=
  Nat.lt_of_lt_of_le (List.length_pos_iff.2 h) (length_le_size t)

/-- A character of a text in two parts is in one of them. -/
theorem exists_of_append_eq {t u before after : Text} {c : Char}
    (h : t ++ u = before ++ c :: after) :
    (∃ w, t = before ++ c :: w) ∨ ∃ w, before = t ++ w ∧ u = w ++ c :: after := by
  rcases List.append_eq_append_iff.1 h with ⟨w, hbefore, hu⟩ | ⟨w, ht, hc⟩
  · exact .inr ⟨w, hbefore, hu⟩
  · cases w with
    | nil => exact .inr ⟨[], by simpa using ht.symm, hc.symm⟩
    | cons d w =>
      obtain ⟨rfl, -⟩ := List.cons.inj hc
      exact .inl ⟨w, ht⟩

theorem cutAt?_size_append (t u : Text) : cutAt? (size t) (t ++ u) = some (t, u) := by
  induction t with
  | nil => simp [cutAt?]
  | cons c t ih =>
    obtain ⟨n, hn⟩ := Nat.exists_eq_add_one.2 (size_pos (List.cons_ne_nil c t))
    have hc : c.utf8Size ≤ n + 1 := by rw [← hn, size_cons]; omega
    have hrest : n + 1 - c.utf8Size = size t := by rw [← hn, size_cons]; omega
    rw [hn, List.cons_append, cutAt?, if_pos hc, hrest, ih]
    rfl

theorem charsWithin_size_append (t u : Text) : charsWithin (size t) (t ++ u) = t.length := by
  induction t with
  | nil => simp [charsWithin]
  | cons c t ih =>
    obtain ⟨n, hn⟩ := Nat.exists_eq_add_one.2 (size_pos (List.cons_ne_nil c t))
    have hrest : n + 1 - c.utf8Size = size t := by rw [← hn, size_cons]; omega
    rw [hn, List.cons_append, charsWithin, hrest, ih, List.length_cons]

/-- The shorter one of two beginnings that end at characters of two classes ends at the first
character of either. -/
theorem min_size_takeWhile (p q : Char → Bool) (t : Text) :
    min (size (t.takeWhile fun c => !p c)) (size (t.takeWhile fun c => !q c)) =
      size (t.takeWhile fun c => !(p c || q c)) := by
  induction t with
  | nil => rfl
  | cons c t ih =>
    cases hp : p c with
    | true => simp [hp]
    | false =>
      cases hq : q c with
      | true => simp [hq]
      | false =>
        simp only [List.takeWhile_cons, hp, hq, Bool.or_false, Bool.not_false, if_true, size_cons]
        rw [← ih]
        omega

/-- `part` is found in `text` at the byte offset `n`. -/
def StandsAt (text : Text) (n : Nat) (part : Text) : Prop :=
  ∃ before after, text = before ++ part ++ after ∧ size before = n

namespace StandsAt
variable {text part : Text} {n : Nat}

theorem self (text : Text) : StandsAt text 0 text := ⟨[], [], by simp, rfl⟩

theorem left {t u : Text} (h : StandsAt text n (t ++ u)) : StandsAt text n t := by
  obtain ⟨before, after, rfl, hn⟩ := h
  exact ⟨before, u ++ after, by simp, hn⟩

theorem right {t u : Text} (h : StandsAt text n (t ++ u)) : StandsAt text (n + size t) u := by
  obtain ⟨before, after, rfl, rfl⟩ := h
  exact ⟨before ++ t, after, by simp, size_append _ _⟩

theorem start (h : StandsAt text n part) : StandsAt text n [] :=
  left (t := []) (u := part) h

theorem stop (h : StandsAt text n part) : StandsAt text (n + size part) [] :=
  right (u := []) (by rwa [List.append_nil])

theorem add_size_le (h : StandsAt text n part) : n + size part ≤ size text := by
  obtain ⟨before, after, rfl, rfl⟩ := h
  simp only [size_append]
  omega

theorem cutAt?_isSome (h : StandsAt text n part) : (cutAt? n text).isSome = true := by
  obtain ⟨before, after, rfl, rfl⟩ := h
  rw [List.append_assoc, cutAt?_size_append]
  rfl

end StandsAt

end Text

/-! ### 32-bit offsets -/

theorem toNat_toUInt32 {n : Nat} (h : n < UInt32.size) : n.toUInt32.toNat = n := by
  rw [UInt32.toNat_ofNat']
  exact Nat.mod_eq_of_lt h

theorem Text.StandsAt.toNat_toUInt32 {text part : Text} {n : Nat} (h : Text.StandsAt text n part)
    (hsize : Text.size text < UInt32.size) : n.toUInt32.toNat = n :=
  DocComment.toNat_toUInt32 (by have := h.add_size_le; omega)

namespace Span

theorem toNat_start_ofText {n : Nat} {v : Text} (h : n + Text.size v < UInt32.size) :
    (ofText n.toUInt32 v).start.toNat = n :=
  toNat_toUInt32 (Nat.lt_of_le_of_lt (Nat.le_add_right _ _) h)

theorem toNat_stop_ofText {n : Nat} {v : Text} (h : n + Text.size v < UInt32.size) :
    (ofText n.toUInt32 v).stop.toNat = n + Text.size v := by
  have hn : n.toUInt32.toNat = n := toNat_toUInt32 (by omega)
  have hv : (Text.size v).toUInt32.toNat = Text.size v := toNat_toUInt32 (by omega)
  show (n.toUInt32 + (Text.size v).toUInt32).toNat = n + Text.size v
  rw [UInt32.toNat_add, hn, hv, Nat.mod_eq_of_lt h]

theorem slice_eq {s : Span} {text : Text} (part : Text) (h : Text.StandsAt text s.start.toNat part)
    (hstop : s.stop.toNat = s.start.toNat + Text.size part) : s.slice text = part := by
  obtain ⟨before, after, rfl, hbefore⟩ := h
  have hle : s.start ≤ s.stop := by rw [UInt32.le_iff_toNat_le]; omega
  have hsub : s.stop.toNat - s.start.toNat = Text.size part := by omega
  rw [slice, if_pos hle, hsub, ← hbefore, List.append_assoc, Text.cutAt?_size_append]
  simp only [Text.cutAt?_size_append]

end Span

namespace Token

theorem toNat_start (kind : Kind) {n : Nat} {v : Text} (h : n + Text.size v < UInt32.size) :
    (ofText kind v n.toUInt32).span.start.toNat = n :=
  Span.toNat_start_ofText h

theorem toNat_stop (kind : Kind) {n : Nat} {v : Text} (h : n + Text.size v < UInt32.size) :
    (ofText kind v n.toUInt32).span.stop.toNat = n + Text.size v :=
  Span.toNat_stop_ofText h

end Token

end DocComment
