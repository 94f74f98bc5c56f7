import DocComment.Proofs.Offsets
import DocComment.Proofs.UrlLanguage

/-!
# Streams of tokens over a text

`Token.Stream m n text ts`: the tokens `ts` cover `text`, which begins at the offset `n`, from left
to right. A token stands behind the one before it, and only line breaks in front of a token that is
not inline belong to none. Each token is a lexeme of its kind (`Token.Lexeme`), and the context `m`
says which tokens may come next: an inline token must follow the beginning of a paragraph, and none
can follow a run of indented lines. The stream ends with the one token that ends the text.
-/

namespace DocComment

/-- A text of line feeds and carriage returns. -/
def Newlines (t : Text) : Prop := ∀ c ∈ t, isNewline c = true

theorem Newlines.nil : Newlines [] := fun _ h => absurd h List.not_mem_nil

theorem Newlines.append {t u : Text} (ht : Newlines t) (hu : Newlines u) : Newlines (t ++ u) := by
  intro c hc
  rcases List.mem_append.1 hc with hc | hc
  · exact ht c hc
  · exact hu c hc

namespace Token

/-- Whether tokens of this kind stand inside a paragraph. -/
def Kind.isInline : Kind → Bool
  | text | star | doubleStar | code | url | link => true
  | paragraph | indented | finish => false

/-- The texts that tokens of each kind may have. -/
def Lexeme : Kind → Text → Prop
  | .paragraph, v | .finish, v => v = []
  | .text, v => v ≠ []
  | .star, v => v = ['*']
  | .doubleStar, v => v = ['*', '*']
  | .code, v => ∃ body, '`' ∉ body ∧ v = '`' :: body ++ ['`']
  | .url, v => Url.IsUrl v
  | .link, v => Url.IsLink v
  | .indented, v => ∃ c t, isIndent c = true ∧ v = c :: t

theorem Lexeme.eq_nil_iff {kind : Kind} {v : Text} (h : Lexeme kind v) :
    v = [] ↔ kind = .paragraph ∨ kind = .finish := by
  cases kind with
  | paragraph => simpa [Lexeme] using h
  | finish => simpa [Lexeme] using h
  | text => simpa [Lexeme] using h
  | star => simp [show v = ['*'] from h]
  | doubleStar => simp [show v = ['*', '*'] from h]
  | code =>
    obtain ⟨body, -, rfl⟩ := h
    simp
  | url => simpa using Url.IsUrl.ne_nil h
  | link =>
    obtain ⟨name, url, rfl, -⟩ := h
    simp [Url.linkText]
  | indented =>
    obtain ⟨c, t, -, rfl⟩ := h
    simp

theorem Lexeme.ne_nil_of_indented {v : Text} (h : Lexeme .indented v) : v ≠ [] := by
  rw [ne_eq, h.eq_nil_iff]
  simp

theorem Lexeme.ne_nil {kind : Kind} {v : Text} (h : Lexeme kind v) (hkind : kind.isInline = true) :
    v ≠ [] := by
  rw [ne_eq, h.eq_nil_iff]
  rintro (rfl | rfl) <;> cases hkind

inductive Context where
  | between
  /-- Behind the beginning of a paragraph, in front of its first inline token. -/
  | opened
  /-- Inside a paragraph or at its end. -/
  | within
deriving DecidableEq

inductive Stream : Context → Nat → Text → List Token → Prop
  | finish {m : Context} {n : Nat} {gap : Text} : m ≠ .opened → Newlines gap →
      Stream m n gap [ofText .finish [] (n + Text.size gap).toUInt32]
  | indented {m : Context} {n : Nat} {gap v rest : Text} {ts : List Token} : m ≠ .opened →
      Newlines gap → Lexeme .indented v → Stream .between (n + Text.size gap + Text.size v) rest ts →
      Stream m n (gap ++ (v ++ rest)) (ofText .indented v (n + Text.size gap).toUInt32 :: ts)
  | paragraph {m : Context} {n : Nat} {gap rest : Text} {ts : List Token} : m ≠ .opened →
      Newlines gap → Stream .opened (n + Text.size gap) rest ts →
      Stream m n (gap ++ rest) (ofText .paragraph [] (n + Text.size gap).toUInt32 :: ts)
  | inline {m : Context} {n : Nat} {kind : Kind} {v rest : Text} {ts : List Token} : m ≠ .between →
      kind.isInline = true → Lexeme kind v → Stream .within (n + Text.size v) rest ts →
      Stream m n (v ++ rest) (ofText kind v n.toUInt32 :: ts)

/-- Inside a paragraph any token may come next. -/
theorem Stream.within {m : Context} {n : Nat} {text : Text} {ts : List Token}
    (h : Stream m n text ts) : Stream .within n text ts := by
  cases h with
  | finish _ hgap => exact .finish (by decide) hgap
  | indented _ hgap hv hrest => exact .indented (by decide) hgap hv hrest
  | paragraph _ hgap hrest => exact .paragraph (by decide) hgap hrest
  | inline _ hkind hv hrest => exact .inline (by decide) hkind hv hrest

namespace Stream
variable {m : Context} {n : Nat} {text rest : Text} {ts : List Token}

theorem standsAt (h : Stream m n rest ts) (hrest : Text.StandsAt text n rest) {t : Token}
    (ht : t ∈ ts) : Lexeme t.kind t.value ∧
      ∃ k, t = .ofText t.kind t.value k.toUInt32 ∧ Text.StandsAt text k t.value := by
  induction h with
  | finish _ _ =>
    obtain rfl := List.mem_singleton.1 ht
    exact ⟨rfl, _, rfl, hrest.stop⟩
  | indented _ _ hv _ ih =>
    rcases List.mem_cons.1 ht with rfl | ht
    · exact ⟨hv, _, rfl, hrest.right.left⟩
    · exact ih hrest.right.right ht
  | paragraph _ _ _ ih =>
    rcases List.mem_cons.1 ht with rfl | ht
    · exact ⟨rfl, _, rfl, hrest.right.start⟩
    · exact ih hrest.right ht
  | inline _ _ hv _ ih =>
    rcases List.mem_cons.1 ht with rfl | ht
    · exact ⟨hv, _, rfl, hrest.left⟩
    · exact ih hrest.right ht

end Stream

end Token

end DocComment
