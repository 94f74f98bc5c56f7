import DocComment.Node.Display
import DocComment.Proofs.JsonListings

/-!
# What the compact form of a tree determines

No two trees have the same compact form (`Node.display_eq_iff`), whatever is in their fields.

Nothing here depends on which characters a quoted text shows as they are. A character may be written
as itself or as an escape of its own, differently each time (`Text.Quotes`), as long as the quote and
the backslash are always escaped.

The form of a node has no mark at its end. But what may come behind it, a comma or a bracket, is no
part of it, and each of its parts begins with a character of its own (`Node.part_append_inj`). So a
form determines its node and where it ends (`Node.bounded`), by induction over both trees at once.
-/

namespace DocComment

namespace Text

/-! ### Hexadecimal numbers -/

theorem toDigits_eq_append (n : Nat) :
    Nat.toDigits 16 n =
      (if n < 16 then [] else Nat.toDigits 16 (n / 16)) ++ [Nat.digitChar (n % 16)] := by
  rw [Nat.toDigits_eq_if (by decide)]
  split
  · next hlt => rw [Nat.mod_eq_of_lt hlt, List.nil_append]
  · rfl

theorem toDigits_inj {m n : Nat} (h : Nat.toDigits 16 m = Nat.toDigits 16 n) : m = n := by
  induction m using Nat.strongRecOn generalizing n with
  | ind m ih =>
    rw [toDigits_eq_append m, toDigits_eq_append n] at h
    obtain ⟨hinit, hlast⟩ := List.append_inj' h rfl
    have hmod : m % 16 = n % 16 :=
      digitChar_inj (Nat.mod_lt m (by decide)) (Nat.mod_lt n (by decide)) (List.cons.inj hlast).1
    -- a number of one digit has nothing in front of it
    split at hinit <;> split at hinit
    · omega
    · exact absurd hinit.symm Nat.toDigits_ne_nil
    · exact absurd hinit Nat.toDigits_ne_nil
    · have hdiv : m / 16 = n / 16 := ih (m / 16) (by omega) hinit
      omega

theorem brace_not_mem_toDigits (n : Nat) : '\x7d' ∉ Nat.toDigits 16 n := by
  have hdigit : ∀ i < 16, Nat.digitChar i ≠ '\x7d' := by decide
  induction n using Nat.strongRecOn with
  | ind n ih =>
    rw [toDigits_eq_append, List.mem_append, List.mem_singleton, not_or]
    refine ⟨?_, (hdigit _ (Nat.mod_lt n (by decide))).symm⟩
    split
    · exact List.not_mem_nil
    · exact ih (n / 16) (by omega)

/-! ### Quoted texts -/

/-- The code point of a character in hexadecimal, between braces. -/
def braced (c : Char) : Text := '\x7b' :: Nat.toDigits 16 c.toNat ++ ['\x7d']

theorem eq_of_braced_isPrefix {c d : Char} (h : braced c <+: braced d) : c = d := by
  obtain ⟨rest, h⟩ := h
  have hdigits : Nat.toDigits 16 c.toNat ++ '\x7d' :: rest =
      Nat.toDigits 16 d.toNat ++ '\x7d' :: [] := by
    simpa [braced] using h
  obtain ⟨hnat, -⟩ :=
    eq_of_append_cons_eq (brace_not_mem_toDigits _) (brace_not_mem_toDigits _) hdigits
  exact Char.toNat_inj.1 (toDigits_inj hnat)

/-- The escapes of a quoted text. -/
def escapes : Escapes where
  letters := [('\x00', '0'), ('\t', 't'), ('\r', 'r'), ('\n', 'n'), ('"', '"'), ('\\', '\\')]
  Code c w := w = braced c
  letter_inj := by decide
  letter_ne := by decide
  code_inj := by
    rintro c d _ _ rfl rfl h
    obtain rfl := eq_of_braced_isPrefix h
    exact ⟨rfl, rfl⟩

/-- The text `w` is `t` between double quotes, with each character spelled in one of its ways. -/
def Quotes (t w : Text) : Prop := Quotation escapes t w

theorem exists_spelling (c : Char) :
    ∃ x : Spelling escapes, x.char = c ∧ x.form = quoteChar c := by
  unfold quoteChar
  split
  case h_7 _ _ _ _ _ hquote hbackslash =>
    split
    · exact ⟨.plain c ⟨hquote, hbackslash⟩, rfl, rfl⟩
    · exact ⟨.code c _ rfl, rfl, rfl⟩
  all_goals exact ⟨.letter _ _ (by decide), rfl, rfl⟩

theorem quotes_quote (t : Text) : Quotes t (quote t) := .of_spell exists_spelling t

end Text

namespace Node

/-! ### Where a form ends -/

/-- A text that is empty or begins with one of the characters `cs`. -/
def BeginsIn (cs : List Char) (r : Text) : Prop := ∀ c ∈ r.head?, c ∈ cs

theorem BeginsIn.nil (cs : List Char) : BeginsIn cs [] := by
  rintro c ⟨⟩

theorem BeginsIn.cons {cs : List Char} {c : Char} (h : c ∈ cs) (r : Text) :
    BeginsIn cs (c :: r) := by
  rintro d ⟨⟩
  exact h

theorem BeginsIn.not_mem {cs : List Char} {c : Char} {r : Text} (h : BeginsIn cs r) (hc : c ∉ cs) :
    c ∉ r.head? :=
  fun hmem => hc (h c hmem)

/-- What comes behind the form of a node, if anything does. -/
def closing : List Char := [',', ']']

/-- A part of a form, which is left out if it is empty. -/
def part {α : Type} (write : List α → Text) (xs : List α) : Text :=
  if xs.isEmpty then [] else write xs

section
variable {α : Type} {write : List α → Text} {lead : Char} {xs ys : List α} {r s : Text}
variable (hlead : ∀ xs, (write xs).head? = some lead)
include hlead

theorem BeginsIn.part {cs : List Char} (h : BeginsIn cs r) :
    BeginsIn (lead :: cs) (part write xs ++ r) := by
  intro c hc
  unfold Node.part at hc
  split at hc
  · exact List.mem_cons_of_mem lead (h c hc)
  · rw [List.head?_append, hlead] at hc
    cases hc
    exact List.mem_cons_self

/-- Whether a part was left out can be seen, since nothing behind it begins as it does. -/
theorem part_append_inj
    (hwrite : xs ≠ [] → ys ≠ [] → write xs ++ r = write ys ++ s → xs = ys ∧ r = s)
    (hr : lead ∉ r.head?) (hs : lead ∉ s.head?) (h : part write xs ++ r = part write ys ++ s) :
    xs = ys ∧ r = s := by
  have hmixed : ∀ {zs : List α} {t u : Text}, lead ∉ t.head? → t ≠ write zs ++ u := by
    rintro zs t u ht rfl
    rw [List.head?_append, hlead] at ht
    exact ht rfl
  cases xs with
  | nil =>
    cases ys with
    | nil => exact ⟨rfl, h⟩
    | cons y ys => exact absurd h (hmixed hr)
  | cons x xs =>
    cases ys with
    | nil => exact absurd h.symm (hmixed hs)
    | cons y ys => exact hwrite (List.cons_ne_nil x xs) (List.cons_ne_nil y ys) h

end

section
variable (quote : Text → Text)

def target (href : Text) : Text := "->".toList ++ quote href

/-- Nodes between brackets. -/
def bracketed (ns : List Node) : Text := '[' :: displayAllWith quote ns ++ [']']

theorem displayWith_append (kind : Kind) (pos : UInt32) (data href : Text) (children : List Node)
    (r : Text) :
    displayWith quote ⟨kind, pos, data, href, children⟩ ++ r =
      kind.name ++ '@' :: (Text.ofNat pos.toNat ++ (part quote data ++ (part (target quote) href ++
        (part (bracketed quote) children ++ r)))) := by
  simp [displayWith, part, target, bracketed]

/-- What stands behind a node when `ns` are still to come, and a bracket behind them. -/
def following (ns : List Node) (r : Text) : Text :=
  match ns with
  | [] => ']' :: r
  | _ :: _ => ',' :: ' ' :: (displayAllWith quote ns ++ ']' :: r)

theorem displayAllWith_cons_append (n : Node) (ns : List Node) (r : Text) :
    displayAllWith quote (n :: ns) ++ ']' :: r = n.displayWith quote ++ following quote ns r := by
  cases ns <;> simp [displayAllWith, following]

theorem beginsIn_following (ns : List Node) (r : Text) :
    BeginsIn closing (following quote ns r) := by
  cases ns <;> exact .cons (by decide) _

end

/-- The form of `n` determines it, and where it ends. -/
def Bounded (quote : Text → Text) (n : Node) : Prop :=
  ∀ ⦃m : Node⦄ ⦃r s : Text⦄, BeginsIn closing r → BeginsIn closing s →
    n.displayWith quote ++ r = m.displayWith quote ++ s → n = m ∧ r = s

section
variable {quote : Text → Text} {ns ms : List Node} {r s : Text}
variable (h : ∀ n ∈ ns, Bounded quote n)
include h

theorem following_inj (heq : following quote ns r = following quote ms s) : ns = ms ∧ r = s := by
  induction ns generalizing ms with
  | nil =>
    cases ms with
    | nil => exact ⟨rfl, (List.cons.inj heq).2⟩
    | cons m ms => simp [following] at heq
  | cons n ns ih =>
    cases ms with
    | nil => simp [following] at heq
    | cons m ms =>
      obtain ⟨hn, hns⟩ := List.forall_mem_cons.1 h
      have htail := (List.cons.inj (List.cons.inj heq).2).2
      rw [displayAllWith_cons_append, displayAllWith_cons_append] at htail
      obtain ⟨rfl, hfollowing⟩ :=
        hn (beginsIn_following quote ns r) (beginsIn_following quote ms s) htail
      obtain ⟨rfl, hrest⟩ := ih hns hfollowing
      exact ⟨rfl, hrest⟩

theorem bracketed_append_inj (hns : ns ≠ []) (hms : ms ≠ [])
    (heq : bracketed quote ns ++ r = bracketed quote ms ++ s) : ns = ms ∧ r = s := by
  have hitems : displayAllWith quote ns ++ ']' :: r = displayAllWith quote ms ++ ']' :: s := by
    simpa [bracketed] using heq
  -- with a comma in front, both lists are what follows some node
  refine following_inj h ?_
  obtain ⟨n, ns, rfl⟩ := List.exists_cons_of_ne_nil hns
  obtain ⟨m, ms, rfl⟩ := List.exists_cons_of_ne_nil hms
  exact congrArg (',' :: ' ' :: ·) hitems

end

theorem at_not_mem_name (kind : Kind) : '@' ∉ kind.name := by
  cases kind <;> decide

/-- A form determines its node, and where it ends. -/
theorem bounded {quote : Text → Text} (hquote : ∀ t, Text.Quotes t (quote t)) (n : Node) :
    Bounded quote n := by
  have hdata : ∀ t, (quote t).head? = some '"' := fun t => (hquote t).head?
  have hhref : ∀ t, (target quote t).head? = some '-' := fun _ => rfl
  have hchildren : ∀ ns, (bracketed quote ns).head? = some '[' := fun _ => rfl
  have hdigit : ∀ {cs : List Char} {r : Text}, BeginsIn cs r → cs.any Char.isDigit = false →
      Markup.startsWith Char.isDigit r = false := by
    intro cs r hr hcs
    rw [Markup.startsWith, Option.any_eq_false]
    exact fun c hc => Bool.eq_false_iff.2 (List.any_eq_false.1 hcs c (hr c hc))
  induction n using Node.induction with
  | node kind pos data href children ih =>
    rintro ⟨kind', pos', data', href', children'⟩ r s hr hs h
    rw [displayWith_append, displayWith_append] at h
    obtain ⟨hkind, hfields⟩ := eq_of_append_cons_eq (at_not_mem_name _) (at_not_mem_name _) h
    -- what can come behind the target, behind the payload, and behind the offset
    have hr₁ : BeginsIn _ (part (bracketed quote) children ++ r) := hr.part hchildren
    have hs₁ : BeginsIn _ (part (bracketed quote) children' ++ s) := hs.part hchildren
    have hr₂ : BeginsIn _ (part (target quote) href ++ _) := hr₁.part hhref
    have hs₂ : BeginsIn _ (part (target quote) href' ++ _) := hs₁.part hhref
    obtain ⟨hpos, hparts⟩ := Text.delimited_ofNat _
      (hdigit (hr₂.part hdata) rfl) (hdigit (hs₂.part hdata) rfl) hfields
    obtain ⟨rfl, hbehindData⟩ := part_append_inj hdata
      (fun _ _ => (hquote data).append_inj (hquote data'))
      (hr₂.not_mem (by decide)) (hs₂.not_mem (by decide)) hparts
    obtain ⟨rfl, hbehindHref⟩ := part_append_inj hhref
      (fun _ _ heq => (hquote href).append_inj (hquote href')
        (List.cons.inj (List.cons.inj heq).2).2)
      (hr₁.not_mem (by decide)) (hs₁.not_mem (by decide)) hbehindData
    obtain ⟨rfl, hrest⟩ := part_append_inj hchildren (bracketed_append_inj ih)
      (hr.not_mem (by decide)) (hs.not_mem (by decide)) hbehindHref
    rw [Kind.name_injective hkind, UInt32.toNat_inj.1 hpos]
    exact ⟨rfl, hrest⟩

theorem displayWith_injective {quote : Text → Text} (hquote : ∀ t, Text.Quotes t (quote t)) :
    Function.Injective (displayWith quote) := fun n _ h =>
  (bounded hquote n (.nil _) (.nil _) (congrArg (· ++ []) h)).1

/-- Trees with the same compact form are the same, and they would be so with any other way to write
the characters of quoted texts. -/
theorem display_eq_iff (n m : Node) :
    (n.display = m.display ↔ n = m) ∧
    ∀ quote : Text → Text, (∀ t, Text.Quotes t (quote t)) →
      (n.displayWith quote = m.displayWith quote ↔ n = m) := by
  have hwith : ∀ quote : Text → Text, (∀ t, Text.Quotes t (quote t)) →
      (n.displayWith quote = m.displayWith quote ↔ n = m) :=
    fun quote hquote => (displayWith_injective hquote).eq_iff
  exact ⟨hwith Text.quote Text.quotes_quote, hwith⟩

/-- Every character by its code point: a payload that looks like the end of itself and a target is
told from one with a target. -/
theorem display_eq_iff_codes :
    ∃ quote : Text → Text, (∀ t, Text.Quotes t (quote t)) ∧
      quote "a".toList = "\"\\u\x7b61\x7d\"".toList ∧
      displayWith quote { kind := .anchor, pos := 2, data := "x".toList, href := "y".toList } ≠
        displayWith quote { kind := .anchor, pos := 2, data := "x\"->\"y".toList } := by
  have hquote : ∀ t, Text.Quotes t ('"' :: t.flatMap (fun c =>
      "\\u\x7b".toList ++ Nat.toDigits 16 c.toNat ++ "\x7d".toList) ++ ['"']) :=
    Text.Quotation.of_spell fun c => ⟨.code c _ rfl, rfl, rfl⟩
  refine ⟨_, hquote, by decide, fun h => ?_⟩
  have hdata := congrArg Node.data (((display_eq_iff _ _).2 _ hquote).1 h)
  exact absurd hdata (by decide)

end Node

end DocComment
