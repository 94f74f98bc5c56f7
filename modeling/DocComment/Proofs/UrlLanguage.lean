import DocComment.Url

/-!
# The languages of URLs and named links

`Pattern.Matches p m`: the text `m` is in the language of the pattern `p`, whatever the order of
choices. A preferred match is always in the language (`Pattern.exists_matches_of_length?`). For the
two patterns of this library the languages are written out as grammars, `Url.IsUrl` and
`Url.IsLink`.
-/

namespace DocComment

theorem eq_of_append_cons_eq {α : Type} {a : α} :
    ∀ {x y t u : List α}, a ∉ x → a ∉ y → x ++ a :: t = y ++ a :: u → x = y ∧ t = u
  | [], [], _, _, _, _, h => ⟨rfl, (List.cons.inj h).2⟩
  | [], b :: y, _, _, _, hy, h => absurd (List.cons.inj h).1 fun hab => hy (by simp [hab])
  | b :: x, [], _, _, hx, _, h => absurd (List.cons.inj h).1 fun hba => hx (by simp [hba])
  | b :: x, c :: y, _, _, hx, hy, h => by
    obtain ⟨rfl, htail⟩ := List.cons.inj h
    obtain ⟨rfl, rfl⟩ := eq_of_append_cons_eq (List.not_mem_of_not_mem_cons hx)
      (List.not_mem_of_not_mem_cons hy) htail
    exact ⟨rfl, rfl⟩

namespace Pattern

inductive Matches : Pattern → Text → Prop
  | nothing : Matches nothing []
  | char {p : Char → Bool} {c : Char} : p c = true → Matches (char p) [c]
  | seq {p q : Pattern} {t u : Text} : Matches p t → Matches q u → Matches (seq p q) (t ++ u)
  | altLeft {p q : Pattern} {t : Text} : Matches p t → Matches (alt p q) t
  | altRight {p q : Pattern} {t : Text} : Matches q t → Matches (alt p q) t
  | manyNil {p : Pattern} : Matches (many p) []
  | manyCons {p : Pattern} {t u : Text} : Matches p t → Matches (many p) u → Matches (many p) (t ++ u)

variable {p q : Pattern} {t m rest : Text}

theorem exists_matches_of_mem_repeatEnds
    (hp : ∀ t, ∀ rest ∈ p.ends t, ∃ m, t = m ++ rest ∧ p.Matches m) (n : Nat) :
    ∀ t, ∀ rest ∈ repeatEnds p.ends n t, ∃ m, t = m ++ rest ∧ (many p).Matches m := by
  induction n with
  | zero =>
    intro t rest h
    rw [repeatEnds, List.mem_singleton] at h
    exact ⟨[], h.symm, .manyNil⟩
  | succ n ih =>
    intro t rest h
    rw [repeatEnds, List.mem_append, List.mem_flatMap, List.mem_singleton] at h
    rcases h with ⟨u, hu, hrest⟩ | rfl
    · obtain ⟨m, rfl, hm⟩ := hp t u hu
      obtain ⟨m', rfl, hm'⟩ := ih u rest hrest
      exact ⟨m ++ m', by simp, .manyCons hm hm'⟩
    · exact ⟨[], rfl, .manyNil⟩

/-- What a way to match takes off a text is in the language. -/
theorem exists_matches_of_mem_ends (p : Pattern) :
    ∀ t, ∀ rest ∈ p.ends t, ∃ m, t = m ++ rest ∧ p.Matches m := by
  induction p with
  | nothing =>
    intro t rest h
    rw [ends, List.mem_singleton] at h
    exact ⟨[], h.symm, .nothing⟩
  | char p =>
    intro t rest h
    cases t with
    | nil => simp [ends] at h
    | cons c t =>
      rw [ends] at h
      split at h
      · next hc => exact ⟨[c], by rw [List.mem_singleton.1 h]; rfl, .char hc⟩
      · simp at h
  | seq p q ihp ihq =>
    intro t rest h
    rw [ends, List.mem_flatMap] at h
    obtain ⟨u, hu, hrest⟩ := h
    obtain ⟨m, rfl, hm⟩ := ihp t u hu
    obtain ⟨m', rfl, hm'⟩ := ihq u rest hrest
    exact ⟨m ++ m', by simp, .seq hm hm'⟩
  | alt p q ihp ihq =>
    intro t rest h
    rcases List.mem_append.1 h with h | h
    · obtain ⟨m, ht, hm⟩ := ihp t rest h
      exact ⟨m, ht, .altLeft hm⟩
    · obtain ⟨m, ht, hm⟩ := ihq t rest h
      exact ⟨m, ht, .altRight hm⟩
  | many p ih =>
    intro t rest h
    exact exists_matches_of_mem_repeatEnds ih t.length t rest h

/-- The preferred match is a beginning of the text that is in the language. -/
theorem exists_matches_of_length? {n : Nat} (h : p.length? t = some n) :
    ∃ m rest, t = m ++ rest ∧ n = m.length ∧ p.Matches m := by
  rw [length?_eq_head?, Option.map_eq_some_iff] at h
  obtain ⟨rest, hrest, rfl⟩ := h
  obtain ⟨m, rfl, hm⟩ := exists_matches_of_mem_ends p t rest (List.mem_of_head? hrest)
  exact ⟨m, rest, rfl, by simp, hm⟩

/-! ### The languages of the derived patterns -/

theorem exists_of_matches_seq (h : (seq p q).Matches m) :
    ∃ t u, m = t ++ u ∧ p.Matches t ∧ q.Matches u := by
  cases h with
  | seq hp hq => exact ⟨_, _, rfl, hp, hq⟩

theorem exists_of_matches_char {p : Char → Bool} (h : (char p).Matches m) :
    ∃ c, m = [c] ∧ p c = true := by
  cases h with
  | char hc => exact ⟨_, rfl, hc⟩

theorem eq_of_matches_word {w : Text} (h : (word w).Matches m) : m = w := by
  induction w generalizing m with
  | nil => cases h; rfl
  | cons c w ih =>
    obtain ⟨_, u, rfl, hc, hu⟩ := exists_of_matches_seq h
    obtain ⟨a, rfl, ha⟩ := exists_of_matches_char hc
    rw [ih hu, beq_iff_eq.1 ha]
    rfl

theorem forall_of_matches_many {p : Char → Bool} (h : (many (char p)).Matches m) :
    ∀ c ∈ m, p c = true := by
  generalize hq : many (char p) = q at h
  induction h with
  | manyNil => simp
  | manyCons hc _ _ ih =>
    cases hq
    obtain ⟨a, rfl, ha⟩ := exists_of_matches_char hc
    simpa using ⟨ha, ih rfl⟩
  | _ => cases hq

theorem forall_of_matches_plus {p : Char → Bool} (h : (plus (char p)).Matches m) :
    m ≠ [] ∧ ∀ c ∈ m, p c = true := by
  obtain ⟨_, u, rfl, hc, hu⟩ := exists_of_matches_seq h
  obtain ⟨a, rfl, ha⟩ := exists_of_matches_char hc
  exact ⟨by simp, by simpa using ⟨ha, forall_of_matches_many hu⟩⟩

theorem exists_of_matches_choice {ps : List Pattern} (h : (choice ps).Matches m) :
    ∃ p ∈ ps, p.Matches m := by
  induction ps with
  | nil => cases h; contradiction
  | cons p ps ih =>
    cases h with
    | altLeft h => exact ⟨p, List.mem_cons_self, h⟩
    | altRight h =>
      obtain ⟨q, hq, hm⟩ := ih h
      exact ⟨q, List.mem_cons_of_mem _ hq, hm⟩

theorem or_of_matches_opt (h : (opt p).Matches m) : p.Matches m ∨ m = [] := by
  cases h with
  | altLeft h => exact .inl h
  | altRight h => cases h; exact .inr rfl

end Pattern

namespace Url

open Pattern

/-- Runs of one class of characters, each two separated by one mark. -/
inductive IsRuns (isChar isMark : Char → Bool) : Text → Prop
  | run {t : Text} : t ≠ [] → (∀ c ∈ t, isChar c = true) → IsRuns isChar isMark t
  | cons {t u : Text} {mark : Char} : t ≠ [] → (∀ c ∈ t, isChar c = true) → isMark mark = true →
      IsRuns isChar isMark u → IsRuns isChar isMark (t ++ mark :: u)

/-- A known scheme, `://`, a host, at most one slash, and a path. -/
def IsUrl (u : Text) : Prop :=
  ∃ scheme ∈ schemes, ∃ host slash path,
    u = scheme ++ "://".toList ++ host ++ slash ++ path ∧ IsRuns isHostChar isHostMark host ∧
      (slash = [] ∨ slash = ['/']) ∧ IsRuns isPathChar isPathMark path

/-- The text `[name](url)` for a name and a URL. -/
def linkText (name url : Text) : Text := '[' :: name ++ "](".toList ++ url ++ [')']

def IsName (name : Text) : Prop := name ≠ [] ∧ ∀ c ∈ name, isNameChar c = true

def IsLink (t : Text) : Prop := ∃ name url, t = linkText name url ∧ IsName name ∧ IsUrl url

/-- What the repetition of marks and runs matches goes on behind any run. -/
theorem isRuns_append_of_matches {isChar isMark : Char → Bool} {t u : Text}
    (h : (many (seq (char isMark) (plus (char isChar)))).Matches u) (ht : t ≠ [])
    (hchars : ∀ c ∈ t, isChar c = true) : IsRuns isChar isMark (t ++ u) := by
  generalize hq : many (seq (char isMark) (plus (char isChar))) = q at h
  induction h generalizing t with
  | manyNil =>
    rw [List.append_nil]
    exact .run ht hchars
  | manyCons hone _ _ ih =>
    cases hq
    obtain ⟨_, r, rfl, hmark, hrun⟩ := exists_of_matches_seq hone
    obtain ⟨mark, rfl, hm⟩ := exists_of_matches_char hmark
    obtain ⟨hne, hall⟩ := forall_of_matches_plus hrun
    simpa using IsRuns.cons ht hchars hm (ih hne hall rfl)
  | _ => cases hq

theorem isRuns_of_matches {isChar isMark : Char → Bool} {m : Text}
    (h : (runs isChar isMark).Matches m) : IsRuns isChar isMark m := by
  obtain ⟨t, u, rfl, hrun, hrest⟩ := exists_of_matches_seq h
  obtain ⟨hne, hall⟩ := forall_of_matches_plus hrun
  exact isRuns_append_of_matches hrest hne hall

theorem mem_schemes_of_matches {m : Text} (h : scheme.Matches m) : m ∈ schemes := by
  obtain ⟨p, hp, hm⟩ := exists_of_matches_choice h
  rcases List.mem_cons.1 hp with rfl | hp
  · obtain ⟨t, u, rfl, hhttp, hs⟩ := exists_of_matches_seq hm
    rw [eq_of_matches_word hhttp]
    rcases or_of_matches_opt hs with hs | rfl
    · rw [eq_of_matches_word hs]
      decide
    · decide
  · obtain ⟨s, hs, rfl⟩ := List.mem_map.1 hp
    rw [eq_of_matches_word hm]
    exact List.mem_map_of_mem (List.mem_cons_of_mem _ (List.mem_cons_of_mem _ hs))

theorem isUrl_of_matches {u : Text} (h : pattern.Matches u) : IsUrl u := by
  obtain ⟨scheme, _, rfl, hscheme, h⟩ := exists_of_matches_seq h
  obtain ⟨_, _, rfl, hmarks, h⟩ := exists_of_matches_seq h
  obtain ⟨host, _, rfl, hhost, h⟩ := exists_of_matches_seq h
  obtain ⟨slash, _, rfl, hslash, h⟩ := exists_of_matches_seq h
  obtain ⟨path, _, rfl, hpath, h⟩ := exists_of_matches_seq h
  cases h
  refine ⟨scheme, mem_schemes_of_matches hscheme, host, slash, path, ?_, isRuns_of_matches hhost,
    ?_, isRuns_of_matches hpath⟩
  · rw [eq_of_matches_word hmarks]
    simp
  · rcases or_of_matches_opt hslash with hslash | rfl
    · obtain ⟨c, rfl, hc⟩ := exists_of_matches_char hslash
      rw [beq_iff_eq.1 hc]
      exact .inr rfl
    · exact .inl rfl

theorem isLink_of_matches {t : Text} (h : linkPattern.Matches t) : IsLink t := by
  obtain ⟨_, _, rfl, hopen, h⟩ := exists_of_matches_seq h
  obtain ⟨name, _, rfl, hname, h⟩ := exists_of_matches_seq h
  obtain ⟨_, _, rfl, hmiddle, h⟩ := exists_of_matches_seq h
  obtain ⟨url, _, rfl, hurl, h⟩ := exists_of_matches_seq h
  obtain ⟨_, _, rfl, hclose, h⟩ := exists_of_matches_seq h
  cases h
  refine ⟨name, url, ?_, forall_of_matches_plus hname, isUrl_of_matches hurl⟩
  rw [eq_of_matches_word hopen, eq_of_matches_word hmiddle, eq_of_matches_word hclose]
  simp [linkText]

theorem exists_isUrl_of_length? {t : Text} {n : Nat} (h : length? t = some n) :
    ∃ u rest, t = u ++ rest ∧ n = u.length ∧ IsUrl u := by
  obtain ⟨u, rest, ht, hn, hu⟩ := exists_matches_of_length? h
  exact ⟨u, rest, ht, hn, isUrl_of_matches hu⟩

theorem exists_isLink_of_linkLength? {t : Text} {n : Nat} (h : linkLength? t = some n) :
    ∃ u rest, t = u ++ rest ∧ n = u.length ∧ IsLink u := by
  obtain ⟨u, rest, ht, hn, hu⟩ := exists_matches_of_length? h
  exact ⟨u, rest, ht, hn, isLink_of_matches hu⟩

/-! ### Where the parts of URLs and links are -/

theorem colon_not_mem_of_mem_schemes {s : Text} (h : s ∈ schemes) : ':' ∉ s := by
  revert s
  decide

theorem IsUrl.ne_nil {u : Text} (h : IsUrl u) : u ≠ [] := by
  obtain ⟨scheme, -, host, slash, path, rfl, -⟩ := h
  simp

/-- A URL that begins with a text free of colons and a colon goes beyond the colon. -/
theorem IsUrl.lt_length {u rest word tail : Text} (h : IsUrl u)
    (heq : word ++ ':' :: tail = u ++ rest) (hword : ':' ∉ word) : word.length < u.length := by
  obtain ⟨scheme, hscheme, host, slash, path, rfl, -⟩ := h
  have heq' : word ++ ':' :: tail =
      scheme ++ ':' :: ('/' :: '/' :: (host ++ slash ++ path) ++ rest) := by
    rw [heq]
    simp
  obtain ⟨rfl, -⟩ := eq_of_append_cons_eq hword (colon_not_mem_of_mem_schemes hscheme) heq'
  simp only [List.length_append]
  have : "://".toList.length = 3 := by decide
  omega

end Url

end DocComment
