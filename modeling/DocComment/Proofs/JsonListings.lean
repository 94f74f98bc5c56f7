import DocComment.Program
import DocComment.Proofs.Quotations

/-!
# What a JSON listing determines

No two lists of tokens and no two trees have the same listing in JSON (`Program.prettyLine_eq_iff`).

The indented form of a JSON value determines the value, and where it ends, unless a digit comes
behind it (`Json.delimited_prettyWith`). Its first character tells what kind of value it is. Items
and fields are listed in the same way (`Json.bracketed`), and behind each of them a comma says that
there are more.

Nothing here depends on which characters of a text are escaped, and how. A character may be written
as itself, by a letter, or by its units of sixteen bits, differently each time (`Json.Quotes`). The
first unit tells whether there is another one (`Json.Code.inj`), so no text can be mistaken for what
comes behind it.

A node leaves out the fields that are empty. Since fields have names, those that are present show
which ones are not (`Json.field_append_inj`).
-/

namespace DocComment

theorem Token.Kind.name_injective : Function.Injective Token.Kind.name := by
  have hmem : ∀ k, k ∈ all := fun k => by cases k <;> decide
  have hall : ∀ k ∈ all, ∀ l ∈ all, k.name = l.name → k = l := by decide
  exact fun k l h => hall k (hmem k) l (hmem l) h

theorem Node.Kind.name_injective : Function.Injective Node.Kind.name := by
  have hmem : ∀ k, k ∈ all := fun k => by cases k <;> decide
  have hall : ∀ k ∈ all, ∀ l ∈ all, k.name = l.name → k = l := by decide
  exact fun k l h => hall k (hmem k) l (hmem l) h

/-- What holds of a node if it holds of its children holds of every node. -/
@[elab_as_elim]
theorem Node.induction {motive : Node → Prop} (n : Node)
    (node : ∀ kind pos data href children, (∀ m ∈ children, motive m) →
      motive ⟨kind, pos, data, href, children⟩) : motive n :=
  match n with
  | ⟨kind, pos, data, href, children⟩ =>
    node kind pos data href children fun m _ => Node.induction m node
termination_by sizeOf n
decreasing_by
  have hlt := List.sizeOf_lt_of_mem ‹m ∈ children›
  rw [Node.mk.sizeOf_spec]
  omega

namespace Json

/-! ### Texts -/

/-- A unit of sixteen bits in hexadecimal. -/
def hexUnit (n : Nat) : Text :=
  [n / 0x1000, n / 0x100, n / 0x10, n].map fun m => Nat.digitChar (m % 16)

/-- The text `w` is the unit `n` in hexadecimal, with letters of either case. -/
structure ShowsUnit (n : Nat) (w : Text) : Prop where
  lt : n < 0x10000
  digits : w.map Char.toLower = hexUnit n

/-- The first one of the two units of a character that does not fit in one. -/
def highSurrogate (c : Char) : Nat := 0xD800 + (c.toNat - 0x10000) / 0x400

def lowSurrogate (c : Char) : Nat := 0xDC00 + (c.toNat - 0x10000) % 0x400

/-- The codes of a character, as they stand behind the letter `u`. -/
inductive Code : Char → Text → Prop
  /-- The code point, if it fits in one unit. -/
  | unit {c : Char} {w : Text} : ShowsUnit c.toNat w → Code c w
  /-- The two units of any other character. -/
  | pair {c : Char} {v w : Text} : 0x10000 ≤ c.toNat → ShowsUnit (highSurrogate c) v →
      ShowsUnit (lowSurrogate c) w → Code c (v ++ '\\' :: 'u' :: w)

theorem hexUnit_inj {m n : Nat} (hm : m < 0x10000) (hn : n < 0x10000) (h : hexUnit m = hexUnit n) :
    m = n := by
  have hdigit : ∀ {i j : Nat}, Nat.digitChar (i % 16) = Nat.digitChar (j % 16) → i % 16 = j % 16 :=
    fun h => Text.digitChar_inj (Nat.mod_lt _ (by decide)) (Nat.mod_lt _ (by decide)) h
  simp only [hexUnit, List.map_cons, List.map_nil, List.cons.injEq, and_true] at h
  obtain ⟨h₃, h₂, h₁, h₀⟩ := h
  replace h₃ := hdigit h₃
  replace h₂ := hdigit h₂
  replace h₁ := hdigit h₁
  replace h₀ := hdigit h₀
  omega

theorem ShowsUnit.length_eq {n : Nat} {w : Text} (h : ShowsUnit n w) : w.length = 4 := by
  rw [← List.length_map Char.toLower, h.digits]
  rfl

theorem ShowsUnit.append_inj {m n : Nat} {v w t u : Text} (hv : ShowsUnit m v) (hw : ShowsUnit n w)
    (h : v ++ t = w ++ u) : m = n ∧ v = w ∧ t = u := by
  obtain ⟨rfl, rfl⟩ := List.append_inj h (hv.length_eq.trans hw.length_eq.symm)
  exact ⟨hexUnit_inj hv.lt hw.lt (hv.digits.symm.trans hw.digits), rfl, rfl⟩

/-- No character has the number of a surrogate. -/
theorem toNat_ne_highSurrogate {c d : Char} (h : 0x10000 ≤ d.toNat) :
    c.toNat ≠ highSurrogate d := by
  have hc : c.toNat < 0xD800 ∨ 0xDFFF < c.toNat ∧ c.toNat < 0x110000 := c.valid
  have hd : d.toNat < 0xD800 ∨ 0xDFFF < d.toNat ∧ d.toNat < 0x110000 := d.valid
  rw [highSurrogate]
  omega

theorem eq_of_surrogates {c d : Char} (hc : 0x10000 ≤ c.toNat) (hd : 0x10000 ≤ d.toNat)
    (hhigh : highSurrogate c = highSurrogate d) (hlow : lowSurrogate c = lowSurrogate d) :
    c = d := by
  refine Char.toNat_inj.1 ?_
  rw [highSurrogate, highSurrogate] at hhigh
  rw [lowSurrogate, lowSurrogate] at hlow
  omega

/-- The first unit tells whether there is another one. -/
theorem Code.inj {c d : Char} {v w : Text} (hc : Code c v) (hd : Code d w) (h : v <+: w) :
    c = d ∧ v = w := by
  obtain ⟨rest, h⟩ := h
  cases hc with
  | unit hv =>
    cases hd with
    | unit hw =>
      obtain ⟨hnat, rfl, -⟩ := hv.append_inj hw (u := []) (by simpa using h)
      exact ⟨Char.toNat_inj.1 hnat, rfl⟩
    | pair hlarge hw =>
      obtain ⟨hnat, -, -⟩ := hv.append_inj hw h
      exact absurd hnat (toNat_ne_highSurrogate hlarge)
  | pair hlarge hv hv' =>
    cases hd with
    | unit hw =>
      obtain ⟨hnat, -, -⟩ := hv.append_inj hw (u := []) (by simpa using h)
      exact absurd hnat.symm (toNat_ne_highSurrogate hlarge)
    | pair hlarge' hw hw' =>
      obtain ⟨hhigh, rfl, htail⟩ := hv.append_inj hw (by simpa using h)
      obtain ⟨hlow, rfl, -⟩ := hv'.append_inj hw' (u := []) (by simpa using htail)
      exact ⟨eq_of_surrogates hlarge hlarge' hhigh hlow, rfl⟩

/-- The escapes that the format allows. -/
def escapes : Text.Escapes where
  letters :=
    [('"', '"'), ('\\', '\\'), ('/', '/'), ('\x08', 'b'), ('\x0c', 'f'), ('\n', 'n'), ('\r', 'r'),
      ('\t', 't')]
  Code := Code
  letter_inj := by decide
  letter_ne := by decide
  code_inj := Code.inj

/-- The text `w` is `t` as a text in JSON, with each character written in one of its ways. -/
def Quotes (t w : Text) : Prop := Text.Quotation escapes t w

theorem exists_spelling (c : Char) :
    ∃ x : Text.Spelling escapes, x.char = c ∧ x.form = escapeChar c := by
  have hcontrol : ∀ n < 0x20,
      ['0', '0', Nat.digitChar (n / 16), Nat.digitChar (n % 16)].map Char.toLower = hexUnit n := by
    decide
  unfold escapeChar
  split
  case h_8 hquote hbackslash _ _ _ _ _ =>
    split
    · next hlt => exact ⟨.code c _ (.unit ⟨by omega, hcontrol _ hlt⟩), rfl, rfl⟩
    · exact ⟨.plain c ⟨hquote, hbackslash⟩, rfl, rfl⟩
  all_goals exact ⟨.letter _ _ (by decide), rfl, rfl⟩

theorem quotes_quote (t : Text) : Quotes t (quote t) := .of_spell exists_spelling t

/-! ### Lists and records -/

section
variable {α : Type} (depth : Nat) (write : α → Text)

/-- Things on lines of their own, with commas behind all but the last. -/
def listed : List α → Text
  | [] => []
  | [x] => newLine depth ++ write x
  | x :: xs => newLine depth ++ write x ++ ',' :: listed xs

/-- A list of things between brackets. -/
def bracketed (opening closing : Char) : List α → Text
  | [] => [opening, closing]
  | x :: xs => opening :: listed (depth + 1) write (x :: xs) ++ newLine depth ++ [closing]

/-- What stands behind a thing when `xs` are still to come, and a new line behind them. -/
def behind (xs : List α) (r : Text) : Text :=
  match xs with
  | [] => '\n' :: r
  | _ :: _ => ',' :: (listed depth write xs ++ '\n' :: r)

theorem listed_cons_append (x : α) (xs : List α) (r : Text) :
    listed depth write (x :: xs) ++ '\n' :: r =
      newLine depth ++ (write x ++ behind depth write xs r) := by
  cases xs <;> simp [listed, behind]

theorem startsWith_behind (xs : List α) (r : Text) :
    Markup.startsWith Char.isDigit (behind depth write xs r) = false := by
  cases xs <;> rfl

end

section
variable {α : Type} {depth : Nat} {write : α → Text} {xs ys : List α} {r s : Text}
variable (h : ∀ x ∈ xs, Text.Delimited write x)
include h

theorem behind_inj (heq : behind depth write xs r = behind depth write ys s) : xs = ys ∧ r = s := by
  induction xs generalizing ys with
  | nil =>
    cases ys with
    | nil => exact ⟨rfl, (List.cons.inj heq).2⟩
    | cons y ys => simp [behind] at heq
  | cons x xs ih =>
    cases ys with
    | nil => simp [behind] at heq
    | cons y ys =>
      obtain ⟨hx, hxs⟩ := List.forall_mem_cons.1 h
      have htail := (List.cons.inj heq).2
      rw [listed_cons_append, listed_cons_append] at htail
      obtain ⟨rfl, hbehind⟩ := hx (startsWith_behind _ _ _ _) (startsWith_behind _ _ _ _)
        (List.append_cancel_left htail)
      obtain ⟨rfl, hrest⟩ := ih hxs hbehind
      exact ⟨rfl, hrest⟩

/-- A list between brackets is determined if each thing in it is. -/
theorem bracketed_append_inj {opening closing : Char} (hclosing : closing ≠ '\n')
    (heq : bracketed depth write opening closing xs ++ r =
      bracketed depth write opening closing ys ++ s) : xs = ys ∧ r = s := by
  have hcons : ∀ x xs t, bracketed depth write opening closing (x :: xs) ++ t =
      opening :: (listed (depth + 1) write (x :: xs) ++
        '\n' :: (List.replicate (2 * depth) ' ' ++ closing :: t)) := by
    intro x xs t
    simp [bracketed, newLine]
  have hmixed : ∀ x xs t u, bracketed depth write opening closing [] ++ t ≠
      bracketed depth write opening closing (x :: xs) ++ u := by
    -- an empty list is closed where any other one begins a new line
    intro x xs t u hmixed
    rw [hcons, listed_cons_append] at hmixed
    exact hclosing (List.cons.inj (List.cons.inj hmixed).2).1
  cases xs with
  | nil =>
    cases ys with
    | nil => exact ⟨rfl, List.append_cancel_left heq⟩
    | cons y ys => exact absurd heq (hmixed y ys r s)
  | cons x xs =>
    cases ys with
    | nil => exact absurd heq.symm (hmixed x xs s r)
    | cons y ys =>
      rw [hcons, hcons] at heq
      have hbehind : behind (depth + 1) write (x :: xs) _ = behind (depth + 1) write (y :: ys) _ :=
        congrArg (',' :: ·) (List.cons.inj heq).2
      obtain ⟨hitems, hrest⟩ := behind_inj h hbehind
      exact ⟨hitems, (List.cons.inj (List.append_cancel_left hrest)).2⟩

end

/-! ### Values -/

section
variable (quote : Text → Text)

/-- A field as it stands in a record. -/
def prettyField (depth : Nat) (field : Text × Json) : Text :=
  quote field.1 ++ ": ".toList ++ prettyWith quote depth field.2

theorem prettyItems_eq_listed (depth : Nat) :
    ∀ vs : List Json, prettyItems quote depth vs = listed depth (prettyWith quote depth) vs
  | [] => rfl
  | [v] => rfl
  | v :: w :: vs => by
    rw [prettyItems, prettyItems_eq_listed depth (w :: vs)]
    · rfl
    · exact List.cons_ne_nil w vs

theorem prettyFields_eq_listed (depth : Nat) :
    ∀ fs : List (Text × Json),
      prettyFields quote depth fs = listed depth (prettyField quote depth) fs
  | [] => rfl
  | [f] => by simp [prettyFields, listed, prettyField]
  | f :: g :: fs => by
    rw [prettyFields, prettyFields_eq_listed depth (g :: fs)]
    · simp [listed, prettyField]
    · exact List.cons_ne_nil g fs

theorem prettyWith_list (depth : Nat) (vs : List Json) :
    prettyWith quote depth (list vs) =
      bracketed depth (prettyWith quote (depth + 1)) '[' ']' vs := by
  cases vs with
  | nil => rfl
  | cons v vs => rw [prettyWith, prettyItems_eq_listed, bracketed]

theorem prettyWith_record (depth : Nat) (fs : List (Text × Json)) :
    prettyWith quote depth (record fs) =
      bracketed depth (prettyField quote (depth + 1)) '\x7b' '\x7d' fs := by
  cases fs with
  | nil => rfl
  | cons f fs => rw [prettyWith, prettyFields_eq_listed, bracketed]

end

inductive Form where
  | text
  | number
  | list
  | record

def form : Json → Form
  | text _ => .text
  | number _ => .number
  | list _ => .list
  | record _ => .record

/-- The form of a value by the first character of its indented form. -/
def Form.ofLead (c : Char) : Form :=
  if c = '"' then .text else if c = '[' then .list else if c = '\x7b' then .record else .number

theorem Form.ofLead_of_isDigit {c : Char} (h : c.isDigit = true) : ofLead c = .number := by
  have hne : ∀ d, d.isDigit = false → c ≠ d := by
    rintro d hd rfl
    rw [h] at hd
    cases hd
  rw [ofLead, if_neg (hne _ rfl), if_neg (hne _ rfl), if_neg (hne _ rfl)]

section
variable {quote : Text → Text} (hquote : ∀ t, Quotes t (quote t))
include hquote

theorem exists_prettyWith_eq (depth : Nat) (v : Json) :
    ∃ c t, prettyWith quote depth v = c :: t ∧ Form.ofLead c = v.form := by
  cases v with
  | text t =>
    obtain ⟨u, hu⟩ := List.head?_eq_some_iff.1 (hquote t).head?
    exact ⟨'"', u, hu, rfl⟩
  | number n =>
    have hne : Text.ofNat n ≠ [] := Nat.toDigits_ne_nil
    obtain ⟨c, t, hdigits⟩ := List.exists_cons_of_ne_nil hne
    have hc : c ∈ Text.ofNat n := by
      rw [hdigits]
      exact List.mem_cons_self
    exact ⟨c, t, hdigits, Form.ofLead_of_isDigit (Text.isDigit_of_mem_ofNat hc)⟩
  | list vs => cases vs <;> exact ⟨_, _, rfl, rfl⟩
  | record fs => cases fs <;> exact ⟨_, _, rfl, rfl⟩

theorem form_eq_form {depth : Nat} {v w : Json} {r s : Text}
    (h : prettyWith quote depth v ++ r = prettyWith quote depth w ++ s) : v.form = w.form := by
  obtain ⟨c, t, hv, hc⟩ := exists_prettyWith_eq hquote depth v
  obtain ⟨d, u, hw, hd⟩ := exists_prettyWith_eq hquote depth w
  rw [hv, hw] at h
  rw [← hc, ← hd, (List.cons.inj h).1]

end

/-- What holds of a value if it holds of the values in it holds of every value. -/
@[elab_as_elim]
theorem induction {motive : Json → Prop} (v : Json) (text : ∀ t, motive (text t))
    (number : ∀ n, motive (number n))
    (list : ∀ vs, (∀ v ∈ vs, motive v) → motive (list vs))
    (record : ∀ fs, (∀ f ∈ fs, motive f.2) → motive (record fs)) : motive v :=
  match v with
  | .text t => text t
  | .number n => number n
  | .list vs => list vs fun v _ => induction v text number list record
  | .record fs => record fs fun f _ => induction f.2 text number list record
termination_by sizeOf v
decreasing_by
  · have hlt := List.sizeOf_lt_of_mem ‹v ∈ vs›
    rw [Json.list.sizeOf_spec]
    omega
  · have hlt := List.sizeOf_lt_of_mem ‹f ∈ fs›
    obtain ⟨name, v⟩ := f
    show sizeOf v < _
    rw [Prod.mk.sizeOf_spec] at hlt
    rw [Json.record.sizeOf_spec]
    omega

section
variable {quote : Text → Text} (hquote : ∀ t, Quotes t (quote t))
include hquote

theorem quote_append_inj {t u r s : Text} (h : quote t ++ r = quote u ++ s) : t = u ∧ r = s :=
  (hquote t).append_inj (hquote u) h

theorem delimited_prettyField {depth : Nat} {f : Text × Json}
    (h : Text.Delimited (prettyWith quote depth) f.2) :
    Text.Delimited (prettyField quote depth) f := by
  obtain ⟨name, v⟩ := f
  rintro ⟨name', w⟩ r s hr hs heq
  simp only [prettyField, List.append_assoc] at heq
  obtain ⟨rfl, hvalue⟩ := quote_append_inj hquote heq
  obtain ⟨rfl, hrest⟩ := h hr hs (List.append_cancel_left hvalue)
  exact ⟨rfl, hrest⟩

/-- The indented form of a value determines the value, and where it ends. -/
theorem delimited_prettyWith (v : Json) (depth : Nat) :
    Text.Delimited (prettyWith quote depth) v := by
  -- the first character of the two forms leaves only values of the same kind
  induction v using induction generalizing depth with
  | text t =>
    intro w r s _ _ h
    have hform := form_eq_form hquote h
    cases w with
    | text u =>
      obtain ⟨rfl, hrest⟩ := quote_append_inj hquote h
      exact ⟨rfl, hrest⟩
    | _ => cases hform
  | number m =>
    intro w r s hr hs h
    have hform := form_eq_form hquote h
    cases w with
    | number n =>
      obtain ⟨rfl, hrest⟩ := Text.delimited_ofNat m hr hs h
      exact ⟨rfl, hrest⟩
    | _ => cases hform
  | list vs ih =>
    intro w r s _ _ h
    have hform := form_eq_form hquote h
    cases w with
    | list ws =>
      rw [prettyWith_list, prettyWith_list] at h
      obtain ⟨rfl, hrest⟩ :=
        bracketed_append_inj (fun v hv => ih v hv (depth + 1)) (by decide) h
      exact ⟨rfl, hrest⟩
    | _ => cases hform
  | record fs ih =>
    intro w r s _ _ h
    have hform := form_eq_form hquote h
    cases w with
    | record gs =>
      rw [prettyWith_record, prettyWith_record] at h
      obtain ⟨rfl, hrest⟩ := bracketed_append_inj
        (fun f hf => delimited_prettyField hquote (ih f hf (depth + 1))) (by decide) h
      exact ⟨rfl, hrest⟩
    | _ => cases hform

theorem prettyWith_injective (depth : Nat) : Function.Injective (prettyWith quote depth) :=
  fun v _ h => (delimited_prettyWith hquote v depth rfl rfl (congrArg (· ++ []) h)).1

end

/-! ### Tokens -/

theorem ofToken_injective : Function.Injective ofToken := by
  rintro ⟨kind, value, start, stop⟩ ⟨kind', value', start', stop'⟩ h
  simp only [ofToken, record.injEq, List.cons.injEq, Prod.mk.injEq, text.injEq, number.injEq,
    true_and, and_true] at h
  obtain ⟨hkind, hstart, hstop, rfl⟩ := h
  rw [Token.Kind.name_injective hkind, UInt32.toNat_inj.1 hstart, UInt32.toNat_inj.1 hstop]

theorem ofTokens_injective : Function.Injective ofTokens := by
  intro ts us h
  exact (List.map_inj_right fun _ _ h => ofToken_injective h).1 (list.inj h)

/-! ### Trees -/

theorem name_ne_of_mem_field {name other : Text} {p : Prop} [Decidable p] {v : Json}
    (h : other ≠ name) : ∀ f ∈ (if p then [] else [(other, v)]), f.1 ≠ name := by
  intro f hf
  split at hf
  · cases hf
  · rw [List.mem_singleton.1 hf]
    exact h

/-- Whether a field was left out can be seen, since no other field has its name. -/
theorem field_append_inj {α : Type} {name : Text} (value : List α → Json) {t u : List α}
    {fs gs : List (Text × Json)} (hvalue : value t = value u → t = u)
    (hfs : ∀ f ∈ fs, f.1 ≠ name) (hgs : ∀ g ∈ gs, g.1 ≠ name)
    (h : (if t.isEmpty then [] else [(name, value t)]) ++ fs =
      (if u.isEmpty then [] else [(name, value u)]) ++ gs) : t = u ∧ fs = gs := by
  cases t with
  | nil =>
    cases u with
    | nil => exact ⟨rfl, h⟩
    | cons b u =>
      have h : fs = (name, value (b :: u)) :: gs := h
      exact absurd rfl (hfs (name, value (b :: u)) (by simp [h]))
  | cons a t =>
    cases u with
    | nil =>
      have h : (name, value (a :: t)) :: fs = gs := h
      exact absurd rfl (hgs (name, value (a :: t)) (by simp [← h]))
    | cons b u =>
      obtain ⟨hfield, hrest⟩ := List.cons.inj h
      exact ⟨hvalue (Prod.mk.inj hfield).2, hrest⟩

theorem ofNodes_inj {ns ms : List Node} (h : ∀ n ∈ ns, ∀ m, ofNode n = ofNode m → n = m)
    (heq : ofNodes ns = ofNodes ms) : ns = ms := by
  induction ns generalizing ms with
  | nil =>
    cases ms with
    | nil => rfl
    | cons m ms => cases heq
  | cons n ns ih =>
    cases ms with
    | nil => cases heq
    | cons m ms =>
      obtain ⟨hn, hns⟩ := List.forall_mem_cons.1 h
      obtain ⟨hhead, htail⟩ := List.cons.inj heq
      rw [hn m hhead, ih hns htail]

theorem ofNode_injective : Function.Injective ofNode := by
  intro n m h
  induction n using Node.induction generalizing m with
  | node kind pos data href children ih =>
    obtain ⟨kind', pos', data', href', children'⟩ := m
    simp only [ofNode, record.injEq, List.cons_append, List.nil_append, List.append_assoc,
      List.cons.injEq, Prod.mk.injEq, text.injEq, number.injEq, true_and] at h
    obtain ⟨hkind, hpos, hfields⟩ := h
    -- of the fields behind each optional one, none has its name
    have hhref : ∀ {p : Prop} [Decidable p] {v : Json},
        ∀ f ∈ (if p then [] else [("children".toList, v)]), f.1 ≠ "href".toList :=
      name_ne_of_mem_field (by decide)
    have hdata : ∀ {p q : Prop} [Decidable p] [Decidable q] {v w : Json},
        ∀ f ∈ (if p then [] else [("href".toList, v)]) ++
          (if q then [] else [("children".toList, w)]), f.1 ≠ "data".toList :=
      List.forall_mem_append.2
        ⟨name_ne_of_mem_field (by decide), name_ne_of_mem_field (by decide)⟩
    have hnodes : list (ofNodes children) = list (ofNodes children') → children = children' :=
      fun h => ofNodes_inj (fun n hn _ heq => ih n hn heq) (list.inj h)
    obtain ⟨rfl, hrest⟩ := field_append_inj text text.inj hdata hdata hfields
    obtain ⟨rfl, hlast⟩ := field_append_inj text text.inj hhref hhref hrest
    obtain ⟨rfl, -⟩ := field_append_inj (fun ns => list (ofNodes ns)) hnodes (by simp) (by simp)
      (congrArg (· ++ []) hlast)
    rw [Node.Kind.name_injective hkind, UInt32.toNat_inj.1 hpos]

/-! ### Listings -/

section
variable {quote : Text → Text} (hquote : ∀ t, Quotes t (quote t)) (depth : Nat)
include hquote

theorem prettyWith_ofTokens_inj {ts us : List Token} :
    prettyWith quote depth (ofTokens ts) = prettyWith quote depth (ofTokens us) ↔ ts = us :=
  ((prettyWith_injective hquote depth).comp ofTokens_injective).eq_iff

theorem prettyWith_ofNode_inj {n m : Node} :
    prettyWith quote depth (ofNode n) = prettyWith quote depth (ofNode m) ↔ n = m :=
  ((prettyWith_injective hquote depth).comp ofNode_injective).eq_iff

end

end Json

namespace Program

/-- Listings in JSON are the same for the same tokens and for the same trees only, and they would be
so with any other way to write the characters of texts. -/
theorem prettyLine_eq_iff :
    ((∀ ts us : List Token,
      prettyLine (Json.ofTokens ts) = prettyLine (Json.ofTokens us) ↔ ts = us) ∧
    ∀ n m : Node, prettyLine (Json.ofNode n) = prettyLine (Json.ofNode m) ↔ n = m) ∧
    ∀ quote : Text → Text, (∀ t, Json.Quotes t (quote t)) →
      (∀ ts us : List Token, Json.prettyWith quote 0 (.ofTokens ts) =
        Json.prettyWith quote 0 (.ofTokens us) ↔ ts = us) ∧
      ∀ n m : Node, Json.prettyWith quote 0 (.ofNode n) =
        Json.prettyWith quote 0 (.ofNode m) ↔ n = m := by
  refine ⟨⟨fun ts us => ?_, fun n m => ?_⟩, fun quote hquote => ⟨fun ts us => ?_, fun n m => ?_⟩⟩
  · rw [prettyLine, prettyLine, List.append_left_inj]
    exact Json.prettyWith_ofTokens_inj Json.quotes_quote 0
  · rw [prettyLine, prettyLine, List.append_left_inj]
    exact Json.prettyWith_ofNode_inj Json.quotes_quote 0
  · exact Json.prettyWith_ofTokens_inj hquote 0
  · exact Json.prettyWith_ofNode_inj hquote 0

/-- With the slash escaped as well: a payload that looks like the end of itself and a target is told
from one with a target. -/
theorem prettyLine_eq_iff_slashes :
    ∃ quote : Text → Text, (∀ t, Json.Quotes t (quote t)) ∧
      quote "</".toList = "\"<\\/\"".toList ∧
      Json.prettyWith quote 0
          (.ofNode { kind := .anchor, pos := 2, data := "x".toList, href := "y".toList }) ≠
        Json.prettyWith quote 0
          (.ofNode { kind := .anchor, pos := 2, data := "x\",\n  \"href\": \"y".toList }) := by
  have hquote : ∀ t, Json.Quotes t
      ('"' :: t.flatMap (fun c => if c = '/' then "\\/".toList else Json.escapeChar c) ++ ['"']) := by
    refine Text.Quotation.of_spell fun c => ?_
    split
    · next h => exact ⟨.letter '/' '/' (by decide), h.symm, rfl⟩
    · exact Json.exists_spelling c
  refine ⟨_, hquote, by decide, fun h => ?_⟩
  have hdata := congrArg Node.data (((prettyLine_eq_iff.2 _ hquote).2 _ _).1 h)
  exact absurd hdata (by decide)

end Program

end DocComment
