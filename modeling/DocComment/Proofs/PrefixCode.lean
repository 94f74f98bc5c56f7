import DocComment.Proofs.Openers

/-!
# Writing that shows where it ends

Things are written one behind the other without marks between them. They can be told apart if what
is written for one of them determines it and where its writing ends, whatever comes behind
(`Text.PrefixCode`). Then a sequence of them is determined as well, up to a text that cannot be taken
for one more of them (`Text.PrefixCode.flatMap_append_inj`).

Most codes write nearly every character as itself and begin all else with a character that they never
write as itself, such as an ampersand or a backslash (`Text.PrefixCode.of_lead`). A number ends where
its digits do, so it is determined only if no digit comes behind it (`Text.Delimited`).
-/

namespace DocComment.Text
variable {α : Type} {write : α → Text}

/-- What is written for a thing determines the thing, and where its writing ends. -/
structure PrefixCode (write : α → Text) : Prop where
  append_inj : ∀ {x y : α} {t u : Text}, write x ++ t = write y ++ u → x = y ∧ t = u

namespace PrefixCode

/-- A code whose marks begin with a leading character, while all else is written as a single other
character, has to tell its marks apart only. -/
theorem of_lead (lead : Char → Bool) (IsMark : α → Prop)
    (hmark : ∀ x, IsMark x → ∃ c w, write x = c :: w ∧ lead c = true)
    (hplain : ∀ x, ¬ IsMark x → ∃ c, write x = [c] ∧ lead c = false)
    (hinj : ∀ x y, ¬ IsMark x → ¬ IsMark y → write x = write y → x = y)
    (hfree : ∀ x y, IsMark x → IsMark y → write x <+: write y → x = y) : PrefixCode write := by
  have hmixed : ∀ {x y : α} {t u : Text}, IsMark x → ¬ IsMark y → write x ++ t ≠ write y ++ u := by
    intro x y t u hx hy h
    obtain ⟨c, w, hw, hc⟩ := hmark x hx
    obtain ⟨d, hd, hd'⟩ := hplain y hy
    rw [hw, hd] at h
    obtain ⟨rfl, -⟩ := List.cons.inj h
    rw [hc] at hd'
    cases hd'
  refine ⟨fun {x y t u} h => ?_⟩
  have hxy : x = y := by
    by_cases hx : IsMark x
    · by_cases hy : IsMark y
      · rcases List.prefix_or_prefix_of_prefix (List.prefix_append (write x) t)
          (h ▸ List.prefix_append (write y) u) with hpre | hpre
        · exact hfree x y hx hy hpre
        · exact (hfree y x hy hx hpre).symm
      · exact absurd h (hmixed hx hy)
    · by_cases hy : IsMark y
      · exact absurd h.symm (hmixed hy hx)
      · obtain ⟨c, hc, -⟩ := hplain x hx
        obtain ⟨d, hd, -⟩ := hplain y hy
        refine hinj x y hx hy ?_
        rw [hc, hd] at h ⊢
        rw [(List.cons.inj h).1]
  subst hxy
  exact ⟨rfl, List.append_cancel_left h⟩

/-- A sequence is determined if what ends it begins with nothing of the code. -/
theorem flatMap_append_inj (h : PrefixCode write) (Stops : Text → Prop)
    (hstop : ∀ x t, ¬ Stops (write x ++ t)) {xs ys : List α} {r s : Text} (hr : Stops r)
    (hs : Stops s) (heq : xs.flatMap write ++ r = ys.flatMap write ++ s) : xs = ys ∧ r = s := by
  induction xs generalizing ys with
  | nil =>
    cases ys with
    | nil => exact ⟨rfl, heq⟩
    | cons y ys =>
      rw [List.flatMap_nil, List.nil_append, List.flatMap_cons, List.append_assoc] at heq
      rw [heq] at hr
      exact absurd hr (hstop y _)
  | cons x xs ih =>
    rw [List.flatMap_cons, List.append_assoc] at heq
    cases ys with
    | nil =>
      rw [List.flatMap_nil, List.nil_append] at heq
      rw [← heq] at hs
      exact absurd hs (hstop x _)
    | cons y ys =>
      rw [List.flatMap_cons, List.append_assoc] at heq
      obtain ⟨rfl, htail⟩ := h.append_inj heq
      obtain ⟨rfl, hrest⟩ := ih htail
      exact ⟨rfl, hrest⟩

end PrefixCode

/-! ### Numbers -/

theorem digitChar_inj {i j : Nat} (hi : i < 16) (hj : j < 16)
    (h : Nat.digitChar i = Nat.digitChar j) : i = j := by
  have hall : ∀ i < 16, ∀ j < 16, Nat.digitChar i = Nat.digitChar j → i = j := by decide
  exact hall i hi j hj h

/-- What is written for `x` determines it, and where its writing ends, if no digit comes behind. -/
def Delimited (write : α → Text) (x : α) : Prop :=
  ∀ ⦃y : α⦄ ⦃t u : Text⦄, Markup.startsWith Char.isDigit t = false →
    Markup.startsWith Char.isDigit u = false → write x ++ t = write y ++ u → x = y ∧ t = u

theorem isDigit_of_mem_ofNat {n : Nat} {c : Char} (h : c ∈ ofNat n) : c.isDigit = true :=
  Nat.isDigit_of_mem_toDigits (by decide) (by decide) h

theorem delimited_ofNat (m : Nat) : Delimited ofNat m := by
  intro n r s hr hs h
  have hrun : ∀ n, ∀ c ∈ ofNat n, c.isDigit = true := fun n c => isDigit_of_mem_ofNat
  have hstop : ∀ {t : Text}, Markup.startsWith Char.isDigit t = false →
      ∀ c ∈ t.head?, c.isDigit = false := by
    intro t ht c hc
    rw [Markup.startsWith, hc] at ht
    exact ht
  obtain ⟨hm, hr'⟩ := Node.takeWhile_run (hrun m) (hstop hr)
  obtain ⟨hn, hs'⟩ := Node.takeWhile_run (hrun n) (hstop hs)
  rw [h] at hm hr'
  have hdigits : Nat.toDigits 10 m = Nat.toDigits 10 n := hm.symm.trans hn
  have hvalue := congrArg (Nat.ofDigitChars 10 · 0) hdigits
  simp only [Nat.ofDigitChars_ten_toDigits] at hvalue
  exact ⟨hvalue, hr'.symm.trans hs'⟩

end DocComment.Text
