import DocComment.Proofs.UrlLocality

/-!
# The preferred match of a URL or a named link is the longest

The ways to match a pattern come in an order of preference, and a search takes the first. It finds a
match whenever there is one (`Pattern.mem_ends_iff`), but the first need not be the longest
(`Pattern.Longest`): what a repetition takes is missing behind it, and with less there the rest of
the pattern may go further.

In a URL the host takes as much as it can, and gives back what the path needs. Runs are tried the
longest first (`Pattern.LongestFirst`), and a path that begins later does not end earlier
(`Pattern.Forward`), because a path that goes through the place where another one begins has all of
that one behind it. So the first match is the longest (`Url.longest_pattern`). In a named link the
path has to end in front of a parenthesis, and the same holds of such paths
(`Url.forward_closedPath`), although the parenthesis may be in the path as well.
-/

namespace DocComment

namespace Pattern

variable {c : Char} {p q : Pattern} {t m rest : Text}

/-! ### Every match is found -/

theorem self_mem_repeatEnds (step : Text → List Text) (n : Nat) (t : Text) :
    t ∈ repeatEnds step n t := by
  cases n <;> simp [repeatEnds]

/-- The bound on repetitions leaves none out. -/
theorem mem_repeatEnds_of_matches (hstrict : p.Strict)
    (hp : ∀ {m}, p.Matches m → ∀ rest, rest ∈ p.ends (m ++ rest)) (hm : (many p).Matches m) :
    ∀ {n : Nat} (rest : Text), m.length ≤ n → rest ∈ repeatEnds p.ends n (m ++ rest) := by
  generalize hq : many p = q at hm
  induction hm with
  | manyNil =>
    intro n rest _
    exact self_mem_repeatEnds p.ends n rest
  | @manyCons _ t u ht _ _ ih =>
    cases hq
    intro n rest hn
    have hstep := hp ht (u ++ rest)
    have hpos : 0 < t.length := by
      have hlt := hstrict _ _ hstep
      simp only [List.length_append] at hlt
      omega
    rw [List.length_append] at hn
    obtain ⟨k, rfl⟩ : ∃ k, n = k + 1 := ⟨n - 1, by omega⟩
    rw [repeatEnds, List.append_assoc]
    exact List.mem_append_left _ (List.mem_flatMap.2 ⟨u ++ rest, hstep, ih rfl rest (by omega)⟩)
  | _ => cases hq

theorem mem_ends_of_matches (h : Avoids c p) (hm : p.Matches m) (rest : Text) :
    rest ∈ p.ends (m ++ rest) := by
  induction h generalizing m rest with
  | nothing =>
    cases hm
    exact List.mem_singleton.2 rfl
  | char _ =>
    obtain ⟨a, rfl, ha⟩ := exists_of_matches_char hm
    simp [ends, ha]
  | seq _ _ ihp ihq =>
    obtain ⟨t, u, rfl, ht, hu⟩ := exists_of_matches_seq hm
    rw [List.append_assoc, ends]
    exact List.mem_flatMap.2 ⟨u ++ rest, ihp ht _, ihq hu rest⟩
  | alt _ _ ihp ihq =>
    cases hm with
    | altLeft hm => exact List.mem_append_left _ (ihp hm rest)
    | altRight hm => exact List.mem_append_right _ (ihq hm rest)
  | many _ hstrict ih =>
    exact mem_repeatEnds_of_matches hstrict (fun hm => ih hm) hm rest (by simp)

/-- The ways to match are the beginnings of the text that are in the language. -/
theorem mem_ends_iff (h : Avoids c p) : rest ∈ p.ends t ↔ ∃ m, t = m ++ rest ∧ p.Matches m := by
  constructor
  · exact exists_matches_of_mem_ends p t rest
  · rintro ⟨m, rfl, hm⟩
    exact mem_ends_of_matches h hm rest

theorem length?_eq_none_iff (h : Avoids c p) :
    p.length? t = none ↔ ∀ m, m <+: t → ¬ p.Matches m := by
  rw [length?_eq_head?, Option.map_eq_none_iff, List.head?_eq_none_iff,
    List.eq_nil_iff_forall_not_mem]
  constructor
  · rintro hnone m ⟨rest, rfl⟩ hm
    exact hnone rest (mem_ends_of_matches h hm rest)
  · intro hnone rest hrest
    obtain ⟨m, rfl, hm⟩ := (mem_ends_iff h).1 hrest
    exact hnone m (List.prefix_append m rest) hm

/-! ### The order of the matches -/

/-- The first way to match is the longest. -/
def Longest (p : Pattern) : Prop :=
  ∀ t, ∀ first ∈ (p.ends t).head?, ∀ rest ∈ p.ends t, first.length ≤ rest.length

/-- The ways to match come the longest first. -/
def LongestFirst (p : Pattern) : Prop := ∀ t, (p.ends t).Pairwise fun u v => u.length ≤ v.length

/-- A match that begins later does not end earlier. -/
def Forward (p : Pattern) : Prop :=
  ∀ m t, ∀ first ∈ (p.ends t).head?, ∀ rest ∈ p.ends (m ++ t), first.length ≤ rest.length

theorem LongestFirst.longest (h : p.LongestFirst) : p.Longest := by
  intro t first hfirst rest hrest
  have hpairwise := h t
  cases hends : p.ends t with
  | nil =>
    rw [hends] at hrest
    cases hrest
  | cons u us =>
    rw [hends] at hfirst hrest hpairwise
    obtain rfl := Option.some.inj hfirst
    rcases List.mem_cons.1 hrest with rfl | hrest
    · exact Nat.le_refl _
    · exact (List.pairwise_cons.1 hpairwise).1 rest hrest

/-- The preferred match has the greatest length of all matches. -/
theorem length?_eq_some_iff (h : Avoids c p) (hlongest : p.Longest) {n : Nat} :
    p.length? t = some n ↔
      (∃ m, m <+: t ∧ p.Matches m ∧ m.length = n) ∧
        ∀ m, m <+: t → p.Matches m → m.length ≤ n := by
  have hmax : ∀ {n}, p.length? t = some n → ∀ m, m <+: t → p.Matches m → m.length ≤ n := by
    rintro n hn m ⟨rest, rfl⟩ hm
    rw [length?_eq_head?, Option.map_eq_some_iff] at hn
    obtain ⟨first, hfirst, rfl⟩ := hn
    have hle := hlongest _ first hfirst rest (mem_ends_of_matches h hm rest)
    rw [List.length_append]
    omega
  constructor
  · intro hn
    refine ⟨?_, hmax hn⟩
    obtain ⟨m, rest, rfl, hlen, hm⟩ := exists_matches_of_length? hn
    exact ⟨m, List.prefix_append m rest, hm, hlen.symm⟩
  · rintro ⟨⟨m, hpre, hm, rfl⟩, hle⟩
    cases hlength : p.length? t with
    | none => exact absurd hm ((length?_eq_none_iff h).1 hlength m hpre)
    | some k =>
      obtain ⟨m', rest, rfl, rfl, hm'⟩ := exists_matches_of_length? hlength
      exact congrArg some (Nat.le_antisymm (hle m' (List.prefix_append m' rest) hm')
        (hmax hlength m hpre hm))

/-! ### One pattern behind another -/

/-- The first match of a sequence is the longest if, among the ways to match its first part, no
later one lets the second part go further than an earlier one. -/
theorem longest_seq (hq : q.Longest)
    (h : ∀ t, (p.ends t).Pairwise fun u v =>
      ∀ first ∈ (q.ends u).head?, ∀ rest ∈ q.ends v, first.length ≤ rest.length) :
    (seq p q).Longest := by
  intro t
  rw [ends]
  have hpairwise := h t
  generalize p.ends t = us at hpairwise
  induction us with
  | nil =>
    intro first _ rest hrest
    cases hrest
  | cons u us ih =>
    obtain ⟨hu, hus⟩ := List.pairwise_cons.1 hpairwise
    intro first hfirst rest hrest
    rw [List.flatMap_cons] at hfirst hrest
    cases hends : q.ends u with
    | nil =>
      rw [hends, List.nil_append] at hfirst hrest
      exact ih hus first hfirst rest hrest
    | cons a as =>
      have hfirst : first ∈ (q.ends u).head? := by
        rw [hends] at hfirst ⊢
        exact hfirst
      rcases List.mem_append.1 hrest with hrest | hrest
      · exact hq u first hfirst rest hrest
      · obtain ⟨v, hv, hrest⟩ := List.mem_flatMap.1 hrest
        exact hu v hv first hfirst rest hrest

theorem ends_seq (p q : Pattern) : (seq p q).ends = fun t => (p.ends t).flatMap q.ends := by
  funext t
  rw [ends]

/-- The second part begins at one place only. -/
theorem longest_seq_of_unique (hq : q.Longest)
    (h : ∀ t, ∀ u ∈ p.ends t, ∀ v ∈ p.ends t, q.ends u ≠ [] → q.ends v ≠ [] → u = v) :
    (seq p q).Longest := by
  refine longest_seq hq fun t => List.pairwise_of_forall_mem_list ?_
  intro u hu v hv first hfirst rest hrest
  obtain rfl := h t u hu v hv (List.ne_nil_of_mem (List.mem_of_head? hfirst))
    (List.ne_nil_of_mem hrest)
  exact hq u first hfirst rest hrest

theorem Forward.longest (h : p.Forward) : p.Longest := fun t => h [] t

theorem longest_seq_of_forward (hp : p.LongestFirst) (hq : q.Forward) : (seq p q).Longest := by
  refine longest_seq hq.longest fun t => (hp t).imp_of_mem ?_
  intro u v hu hv hle first hfirst rest hrest
  obtain ⟨m, rfl⟩ := List.suffix_of_suffix_length_le (isSuffix_of_mem_ends p t u hu)
    (isSuffix_of_mem_ends p t v hv) hle
  exact hq m u first hfirst rest hrest

/-- A match that goes on through one that begins later is a match from there on, so the later one,
being the longest, ends no earlier. -/
theorem forward_of_closed (havoids : Avoids c p) (hlongest : p.Longest)
    (hclosed : ∀ {m u v}, p.Matches u → u <+: v → p.Matches (m ++ v) → p.Matches v) :
    p.Forward := by
  intro m t first hfirst rest hrest
  by_contra hlt
  obtain ⟨u, rfl, hu⟩ := exists_matches_of_mem_ends p t first (List.mem_of_head? hfirst)
  obtain ⟨w, hw, hmatches⟩ := exists_matches_of_mem_ends p _ rest hrest
  have hlength := congrArg List.length hw
  simp only [List.length_append] at hlength
  obtain ⟨v, rfl⟩ : m <+: w :=
    List.prefix_of_prefix_length_le (List.prefix_append m (u ++ first))
      (hw ▸ List.prefix_append w rest) (by omega)
  rw [List.append_assoc, List.append_cancel_left_eq] at hw
  rw [List.length_append] at hlength
  have hpre : u <+: v :=
    List.prefix_of_prefix_length_le (List.prefix_append u first)
      (hw ▸ List.prefix_append v rest) (by omega)
  refine hlt (hlongest _ first hfirst rest ?_)
  rw [hw]
  exact mem_ends_of_matches havoids (hclosed hu hpre hmatches) rest

theorem ends_opt_char_cons (isChar : Char → Bool) (q : Pattern) (d : Char) (u : Text) :
    (seq (opt (char isChar)) q).ends (d :: u) =
      (if isChar d then q.ends u else []) ++ q.ends (d :: u) := by
  rw [opt, ends, ends, ends, ends]
  split <;> simp

/-- A character that may stand in front is taken by preference, and a match behind it goes as far as
one that begins with it. -/
theorem Forward.opt_char (isChar : Char → Bool) (h : q.Forward) :
    (seq (opt (char isChar)) q).Forward := by
  intro m t first hfirst rest hrest
  -- what is left over by the one is left over by a match of `q` from the same place or the next
  have hrest : rest ∈ q.ends (m ++ t) ∨
      ∃ d u, m ++ t = d :: u ∧ isChar d = true ∧ rest ∈ q.ends u := by
    cases hmt : m ++ t with
    | nil =>
      rw [hmt] at hrest
      exact .inl (by simpa [opt, ends] using hrest)
    | cons d u =>
      rw [hmt, ends_opt_char_cons] at hrest
      rcases List.mem_append.1 hrest with hrest | hrest
      · split at hrest
        · next hd => exact .inr ⟨d, u, rfl, hd, hrest⟩
        · cases hrest
      · exact .inl hrest
  cases t with
  | nil =>
    replace hfirst : first ∈ (q.ends []).head? := by simpa [opt, ends] using hfirst
    rcases hrest with hrest | ⟨d, u, hu, -, hrest⟩
    · exact h m [] first hfirst rest hrest
    · exact h u [] first hfirst rest (by rwa [List.append_nil])
  | cons e t =>
    rw [ends_opt_char_cons] at hfirst
    cases htaken : (if isChar e then q.ends t else []) with
    | nil =>
      rw [htaken, List.nil_append] at hfirst
      rcases hrest with hrest | ⟨d, u, hu, hd, hrest⟩
      · exact h m (e :: t) first hfirst rest hrest
      · cases m with
        | nil =>
          obtain ⟨rfl, rfl⟩ := List.cons.inj hu
          rw [if_pos hd] at htaken
          rw [htaken] at hrest
          cases hrest
        | cons _ m =>
          obtain ⟨-, rfl⟩ := List.cons.inj hu
          exact h m (e :: t) first hfirst rest hrest
    | cons a as =>
      rw [htaken] at hfirst
      split at htaken
      · replace hfirst : first ∈ (q.ends t).head? := by rwa [htaken]
        rcases hrest with hrest | ⟨d, u, hu, -, hrest⟩
        · exact h (m ++ [e]) t first hfirst rest (by rwa [List.append_assoc])
        · cases m with
          | nil =>
            obtain ⟨-, rfl⟩ := List.cons.inj hu
            exact h [] t first hfirst rest hrest
          | cons _ m =>
            obtain ⟨-, rfl⟩ := List.cons.inj hu
            exact h (m ++ [e]) t first hfirst rest (by rwa [List.append_assoc])
      · cases htaken

theorem longestFirst_nothing : nothing.LongestFirst := fun _ => List.pairwise_singleton _ _

/-- In a sequence, the ways to match the second part stay in the order of the first. -/
theorem longestFirst_seq (hq : q.LongestFirst)
    (h : ∀ t, (p.ends t).Pairwise fun u v =>
      ∀ a ∈ q.ends u, ∀ b ∈ q.ends v, a.length ≤ b.length) : (seq p q).LongestFirst := by
  intro t
  rw [ends]
  exact List.pairwise_flatMap.2 ⟨fun u _ => hq u, h t⟩

/-! ### Texts in the language of a pattern -/

theorem matches_seq_nothing_iff : (seq p nothing).Matches m ↔ p.Matches m := by
  constructor
  · intro h
    obtain ⟨t, _, rfl, ht, h⟩ := exists_of_matches_seq h
    cases h
    rwa [List.append_nil]
  · intro h
    have hseq := Matches.seq h .nothing
    rwa [List.append_nil] at hseq

theorem matches_word (w : Text) : (word w).Matches w := by
  induction w with
  | nil => exact .nothing
  | cons c w ih => exact .seq (.char (p := (· == c)) (beq_self_eq_true c)) ih

theorem matches_many_char {isChar : Char → Bool} (h : ∀ c ∈ m, isChar c = true) :
    (many (char isChar)).Matches m := by
  induction m with
  | nil => exact .manyNil
  | cons c m ih =>
    obtain ⟨hc, hm⟩ := List.forall_mem_cons.1 h
    exact .manyCons (.char hc) (ih hm)

theorem matches_plus_char {isChar : Char → Bool} (hne : m ≠ []) (h : ∀ c ∈ m, isChar c = true) :
    (plus (char isChar)).Matches m := by
  obtain ⟨c, m, rfl⟩ := List.exists_cons_of_ne_nil hne
  obtain ⟨hc, hm⟩ := List.forall_mem_cons.1 h
  exact .seq (.char hc) (matches_many_char hm)

theorem matches_choice {ps : List Pattern} (hp : p ∈ ps) (hm : p.Matches m) :
    (choice ps).Matches m := by
  induction ps with
  | nil => cases hp
  | cons r ps ih =>
    rcases List.mem_cons.1 hp with rfl | hp
    · exact .altLeft hm
    · exact .altRight (ih hp)

/-! ### Runs of characters -/

/-- A run gives back one character after the other, so behind all but the longest the class goes
on. -/
theorem pairwise_repeatEnds_char (isChar : Char → Bool) (n : Nat) (t : Text) :
    (repeatEnds (char isChar).ends n t).Pairwise fun u v =>
      u.length ≤ v.length ∧ Markup.startsWith isChar v = true := by
  induction n generalizing t with
  | zero => exact List.pairwise_singleton _ _
  | succ n ih =>
    cases t with
    | nil => exact List.pairwise_singleton _ _
    | cons c t =>
      rw [repeatEnds, ends]
      split
      · next hc =>
        rw [List.flatMap_singleton]
        refine List.pairwise_append.2 ⟨ih t, List.pairwise_singleton _ _, ?_⟩
        intro u hu v hv
        obtain rfl := List.mem_singleton.1 hv
        have hsuffix := isSuffix_of_mem_repeatEnds (isSuffix_of_mem_ends (char isChar)) n t u hu
        have hle := hsuffix.length_le
        exact ⟨Nat.le_succ_of_le hle, hc⟩
      · exact List.pairwise_singleton _ _

/-- One character in front does not change the order of what comes behind. -/
theorem pairwise_seq_char {R : Text → Text → Prop} (isChar : Char → Bool)
    (h : ∀ t, (q.ends t).Pairwise R) (t : Text) : ((seq (char isChar) q).ends t).Pairwise R := by
  rw [ends]
  cases t with
  | nil => exact .nil
  | cons c t =>
    rw [ends]
    split
    · rw [List.flatMap_singleton]
      exact h t
    · exact .nil

theorem pairwise_plus_char (isChar : Char → Bool) (t : Text) :
    ((plus (char isChar)).ends t).Pairwise fun u v =>
      u.length ≤ v.length ∧ Markup.startsWith isChar v = true :=
  pairwise_seq_char isChar (fun t => pairwise_repeatEnds_char isChar t.length t) t

end Pattern

namespace Url
open Pattern

/-! ### Runs separated by marks -/

section
variable {isChar isMark : Char → Bool} (hdisjoint : ∀ c, isChar c = true → isMark c = false)
include hdisjoint

/-- Where a run has given something back, no mark follows and nothing more is taken. -/
theorem length_le_of_mem_marked {u v a b : Text} {n k : Nat} (hle : u.length ≤ v.length)
    (hv : Markup.startsWith isChar v = true)
    (ha : a ∈ repeatEnds (seq (char isMark) (plus (char isChar))).ends n u)
    (hb : b ∈ repeatEnds (seq (char isMark) (plus (char isChar))).ends k v) :
    a.length ≤ b.length := by
  have hmarked : repeatEnds (seq (char isMark) (plus (char isChar))).ends k v = [v] := by
    cases v with
    | nil => cases hv
    | cons c v =>
      cases k with
      | zero => rfl
      | succ k => simp [repeatEnds, ends, hdisjoint c hv]
  rw [hmarked] at hb
  obtain rfl := List.mem_singleton.1 hb
  have hsuffix := isSuffix_of_mem_repeatEnds (isSuffix_of_mem_ends _) n u a ha
  exact Nat.le_trans hsuffix.length_le hle

theorem pairwise_marked (n : Nat) (t : Text) :
    (repeatEnds (seq (char isMark) (plus (char isChar))).ends n t).Pairwise fun u v =>
      u.length ≤ v.length := by
  induction n generalizing t with
  | zero => exact List.pairwise_singleton _ _
  | succ n ih =>
    have hsuffix := isSuffix_of_mem_ends (seq (char isMark) (plus (char isChar)))
    rw [repeatEnds]
    refine List.pairwise_append.2 ⟨List.pairwise_flatMap.2 ⟨fun u _ => ih u, ?_⟩,
      List.pairwise_singleton _ _, ?_⟩
    · refine (pairwise_seq_char isMark (pairwise_plus_char isChar) t).imp ?_
      rintro u v ⟨hle, hv⟩ a ha b hb
      exact length_le_of_mem_marked hdisjoint hle hv ha hb
    · intro a ha b hb
      obtain rfl := List.mem_singleton.1 hb
      obtain ⟨u, hu, ha⟩ := List.mem_flatMap.1 ha
      exact ((isSuffix_of_mem_repeatEnds hsuffix n u a ha).trans (hsuffix _ u hu)).length_le

theorem longestFirst_runs : (runs isChar isMark).LongestFirst := by
  refine longestFirst_seq (fun t => pairwise_marked hdisjoint t.length t) fun t => ?_
  refine (pairwise_plus_char isChar t).imp ?_
  rintro u v ⟨hle, hv⟩ a ha b hb
  exact length_le_of_mem_marked hdisjoint hle hv ha hb

end

theorem isHostMark_of_isHostChar (c : Char) (h : isHostChar c = true) : isHostMark c = false := by
  cases hmark : isHostMark c with
  | false => rfl
  | true =>
    simp only [isHostMark, Bool.or_eq_true, beq_iff_eq] at hmark
    rcases hmark with rfl | rfl <;> cases h

theorem isPathMark_of_isPathChar (c : Char) (h : isPathChar c = true) : isPathMark c = false := by
  cases hmark : isPathMark c with
  | false => rfl
  | true =>
    simp only [isPathMark, Bool.or_eq_true, beq_iff_eq] at hmark
    rcases hmark with ((rfl | rfl) | rfl) | rfl <;> cases h

/-! ### The languages of the patterns -/

section
variable {isChar isMark : Char → Bool} {t m : Text}

theorem IsRuns.startsWith (h : IsRuns isChar isMark t) (rest : Text) :
    Markup.startsWith isChar (t ++ rest) = true := by
  cases h with
  | run hne hchars | cons hne hchars _ _ =>
    obtain ⟨c, t, rfl⟩ := List.exists_cons_of_ne_nil hne
    exact hchars c List.mem_cons_self

theorem IsRuns.cons_char {c : Char} (hc : isChar c = true) (h : IsRuns isChar isMark t) :
    IsRuns isChar isMark (c :: t) := by
  cases h with
  | run _ hchars => exact .run (List.cons_ne_nil _ _) (List.forall_mem_cons.2 ⟨hc, hchars⟩)
  | cons _ hchars hmark hu =>
    exact .cons (List.cons_ne_nil _ _) (List.forall_mem_cons.2 ⟨hc, hchars⟩) hmark hu

theorem IsRuns.append_char {c : Char} (h : IsRuns isChar isMark t) (hc : isChar c = true) :
    IsRuns isChar isMark (t ++ [c]) := by
  induction h with
  | @run t _ hchars =>
    refine .run (by simp) fun d hd => ?_
    rcases List.mem_append.1 hd with hd | hd
    · exact hchars d hd
    · rwa [List.mem_singleton.1 hd]
  | @cons t u mark hne hchars hmark _ ih =>
    rw [List.append_assoc, List.cons_append]
    exact .cons hne hchars hmark ih

theorem IsRuns.ne_nil (h : IsRuns isChar isMark t) : t ≠ [] := by
  cases h with
  | run hne => exact hne
  | cons => simp

theorem IsRuns.isChar_of_getLast? {c : Char} (h : IsRuns isChar isMark t)
    (hc : c ∈ t.getLast?) : isChar c = true := by
  induction h with
  | run _ hchars => exact hchars c (List.mem_of_getLast? hc)
  | @cons t u mark _ _ _ hu ih =>
    rw [List.getLast?_append_of_ne_nil _ (List.cons_ne_nil _ _),
      List.getLast?_cons_of_ne_nil hu.ne_nil] at hc
    exact ih hc

/-- Runs that are cut in front of a character of the class go on with runs. -/
theorem IsRuns.right (hdisjoint : ∀ c, isChar c = true → isMark c = false)
    (h : IsRuns isChar isMark (m ++ t)) (ht : Markup.startsWith isChar t = true) :
    IsRuns isChar isMark t := by
  generalize hmt : m ++ t = w at h
  induction h generalizing m with
  | run _ hchars =>
    refine .run ?_ fun c hc => hchars c (hmt ▸ List.mem_append_right m hc)
    rintro rfl
    cases ht
  | @cons run u mark _ hchars hmark hu ih =>
    rcases List.append_eq_append_iff.1 hmt with ⟨w, hrun, htw⟩ | ⟨w, rfl, hu'⟩
    · -- the cut is inside the first run, or in front of the mark behind it
      cases w with
      | nil =>
        rw [htw] at ht
        rw [hdisjoint mark ht] at hmark
        cases hmark
      | cons c w =>
        rw [htw]
        refine .cons (List.cons_ne_nil c w) (fun d hd => hchars d ?_) hmark hu
        rw [hrun]
        exact List.mem_append_right m hd
    · cases w with
      | nil =>
        rw [← show mark :: u = t from hu'] at ht
        rw [hdisjoint mark ht] at hmark
        cases hmark
      | cons d w => exact ih (List.cons.inj hu').2.symm

theorem matches_runs_iff : (runs isChar isMark).Matches m ↔ IsRuns isChar isMark m := by
  refine ⟨isRuns_of_matches, fun h => ?_⟩
  suffices hsplit : ∃ t u, m = t ++ u ∧ (plus (char isChar)).Matches t ∧
      (many (seq (char isMark) (plus (char isChar)))).Matches u by
    obtain ⟨t, u, rfl, ht, hu⟩ := hsplit
    exact .seq ht hu
  induction h with
  | @run t hne hchars =>
    exact ⟨t, [], (List.append_nil t).symm, matches_plus_char hne hchars, .manyNil⟩
  | @cons t u mark hne hchars hmark _ ih =>
    obtain ⟨run, rest, rfl, hrun, hrest⟩ := ih
    exact ⟨t, mark :: (run ++ rest), rfl, matches_plus_char hne hchars,
      .manyCons (.seq (.char hmark) hrun) hrest⟩

end

/-- What follows the host. The slash in front is a character of the path as well. -/
theorem matches_path_iff {m : Text} :
    (chain [opt (char (· == '/')), runs isPathChar isPathMark]).Matches m ↔
      IsRuns isPathChar isPathMark m := by
  constructor
  · intro h
    obtain ⟨slash, _, rfl, hslash, h⟩ := exists_of_matches_seq h
    obtain ⟨path, _, rfl, hpath, h⟩ := exists_of_matches_seq h
    cases h
    rw [List.append_nil]
    have hpath := isRuns_of_matches hpath
    rcases or_of_matches_opt hslash with hslash | rfl
    · obtain ⟨c, rfl, hc⟩ := exists_of_matches_char hslash
      obtain rfl := beq_iff_eq.1 hc
      exact hpath.cons_char rfl
    · exact hpath
  · intro h
    have hchain := Matches.seq (.altRight .nothing : (opt (char (· == '/'))).Matches [])
      (.seq (matches_runs_iff.2 h) .nothing)
    rwa [List.append_nil] at hchain

theorem matches_scheme {s : Text} (h : s ∈ schemes) : scheme.Matches s := by
  obtain ⟨name, hname, rfl⟩ := List.mem_map.1 h
  rcases List.mem_cons.1 hname with rfl | hname
  · exact .altLeft (.seq (matches_word "http".toList) (.altRight .nothing))
  · rcases List.mem_cons.1 hname with rfl | hname
    · exact .altLeft (.seq (matches_word "http".toList) (.altLeft (matches_word "s".toList)))
    · exact .altRight (matches_choice (List.mem_map_of_mem hname) (matches_word name.toList))

theorem matches_pattern_iff {u : Text} : pattern.Matches u ↔ IsUrl u := by
  refine ⟨isUrl_of_matches, ?_⟩
  rintro ⟨s, hs, host, slash, path, rfl, hhost, hslash, hpath⟩
  have hpath : IsRuns isPathChar isPathMark (slash ++ path) := by
    rcases hslash with rfl | rfl
    · exact hpath
    · exact hpath.cons_char rfl
  have hmatches := Matches.seq (matches_scheme hs) (.seq (matches_word "://".toList)
    (.seq (matches_runs_iff.2 hhost) (matches_path_iff.2 hpath)))
  rw [List.append_assoc, List.append_assoc, List.append_assoc]
  exact hmatches

theorem matches_linkPattern_iff {t : Text} : linkPattern.Matches t ↔ IsLink t := by
  refine ⟨isLink_of_matches, ?_⟩
  rintro ⟨name, url, rfl, hname, hurl⟩
  have hmatches := Matches.seq (matches_word "[".toList) (.seq (matches_plus_char hname.1 hname.2)
    (.seq (matches_word "](".toList) (.seq (matches_pattern_iff.2 hurl)
      (.seq (matches_word ")".toList) .nothing))))
  have htext : linkText name url =
      "[".toList ++ (name ++ ("](".toList ++ (url ++ (")".toList ++ [])))) := by
    simp [linkText]
  rw [htext]
  exact hmatches

/-! ### The first match of a URL -/

/-- The slash in front of a path is taken by preference, and the path behind it goes as far as with
it. -/
theorem forward_path : (chain [opt (char (· == '/')), runs isPathChar isPathMark]).Forward := by
  have hfirst : (seq (runs isPathChar isPathMark) nothing).LongestFirst := by
    refine longestFirst_seq longestFirst_nothing fun t => ?_
    refine (longestFirst_runs isPathMark_of_isPathChar t).imp ?_
    intro u v hle a ha b hb
    rwa [List.mem_singleton.1 ha, List.mem_singleton.1 hb]
  have havoids : Avoids '\n' (seq (runs isPathChar isPathMark) nothing) :=
    .seq (avoids_runs rfl rfl) .nothing
  refine Forward.opt_char _ (forward_of_closed havoids hfirst.longest ?_)
  intro m u v hu hpre hv
  obtain ⟨w, rfl⟩ := hpre
  have hpath := isRuns_of_matches (matches_seq_nothing_iff.1 hv)
  have hstart := (isRuns_of_matches (matches_seq_nothing_iff.1 hu)).startsWith w
  exact matches_seq_nothing_iff.2
    (matches_runs_iff.2 (hpath.right isPathMark_of_isPathChar hstart))

theorem exists_of_ends_word_ne_nil {w u : Text} {q : Pattern} (h : (seq (word w) q).ends u ≠ []) :
    ∃ v, u = w ++ v := by
  obtain ⟨rest, hrest⟩ := List.exists_mem_of_ne_nil _ h
  obtain ⟨m, rfl, hm⟩ := exists_matches_of_mem_ends _ u rest hrest
  obtain ⟨t, v, rfl, ht, -⟩ := exists_of_matches_seq hm
  obtain rfl := eq_of_matches_word ht
  exact ⟨v ++ rest, by simp⟩

/-- The second part begins behind a given word. -/
theorem longest_word_seq (w : Text) {q : Pattern} (hq : q.Longest) : (seq (word w) q).Longest := by
  refine longest_seq_of_unique hq ?_
  intro t u hu v hv _ _
  obtain ⟨m, rfl, hm⟩ := exists_matches_of_mem_ends _ t u hu
  obtain ⟨m', heq, hm'⟩ := exists_matches_of_mem_ends _ _ v hv
  rw [eq_of_matches_word hm, eq_of_matches_word hm'] at heq
  exact List.append_cancel_left heq

/-- What a pattern takes in front of a word ends where the word's first character comes first. -/
theorem longest_seq_word {p q : Pattern} {a : Char} (w : Text)
    (hp : ∀ m, p.Matches m → a ∉ m) (hq : q.Longest) :
    (seq p (seq (word (a :: w)) q)).Longest := by
  refine longest_seq_of_unique (longest_word_seq (a :: w) hq) ?_
  intro t u hu v hv hune hvne
  obtain ⟨u', rfl⟩ := exists_of_ends_word_ne_nil hune
  obtain ⟨v', rfl⟩ := exists_of_ends_word_ne_nil hvne
  obtain ⟨m, rfl, hm⟩ := exists_matches_of_mem_ends _ t _ hu
  obtain ⟨m', heq, hm'⟩ := exists_matches_of_mem_ends _ _ _ hv
  obtain ⟨rfl, -⟩ := eq_of_append_cons_eq (hp m hm) (hp m' hm') heq
  exact List.append_cancel_left heq

/-- A scheme ends in front of the first colon, and the host where the path can begin, as late as
possible. -/
theorem longest_schemeHost {q : Pattern} (hq : q.Forward) :
    (seq scheme (seq (word "://".toList) (seq (runs isHostChar isHostMark) q))).Longest :=
  longest_seq_word "//".toList
    (fun _ hm => colon_not_mem_of_mem_schemes (mem_schemes_of_matches hm))
    (longest_seq_of_forward (longestFirst_runs isHostMark_of_isHostChar) hq)

/-- The preferred match of a URL is the longest. -/
theorem longest_pattern : pattern.Longest := longest_schemeHost forward_path

/-! ### The first match of a named link -/

/-- What is left behind the closing parenthesis. -/
theorem mem_ends_close_iff {t rest : Text} :
    rest ∈ (seq (word ")".toList) nothing).ends t ↔ t = ')' :: rest := by
  have havoids : Avoids '\n' (seq (word ")".toList) nothing) := .seq (.word (by simp)) .nothing
  rw [mem_ends_iff havoids]
  simp only [matches_seq_nothing_iff]
  constructor
  · rintro ⟨m, rfl, hm⟩
    rw [eq_of_matches_word hm]
    rfl
  · rintro rfl
    exact ⟨_, rfl, matches_word ")".toList⟩

theorem matches_closedPath_iff {m : Text} :
    (seq (runs isPathChar isPathMark) (seq (word ")".toList) nothing)).Matches m ↔
      ∃ path, m = path ++ [')'] ∧ IsRuns isPathChar isPathMark path := by
  constructor
  · intro h
    obtain ⟨path, close, rfl, hpath, hclose⟩ := exists_of_matches_seq h
    rw [eq_of_matches_word (matches_seq_nothing_iff.1 hclose)]
    exact ⟨path, rfl, isRuns_of_matches hpath⟩
  · rintro ⟨path, rfl, hpath⟩
    exact .seq (matches_runs_iff.2 hpath) (matches_seq_nothing_iff.2 (matches_word ")".toList))

/-- The closing parenthesis may be a character of the path, so there can be several places for it. The
last one is found first, wherever the path begins. -/
theorem forward_closedPath :
    (seq (runs isPathChar isPathMark) (seq (word ")".toList) nothing)).Forward := by
  have hfirst : (seq (runs isPathChar isPathMark) (seq (word ")".toList) nothing)).LongestFirst := by
    refine longestFirst_seq ?_ fun t => (longestFirst_runs isPathMark_of_isPathChar t).imp ?_
    · intro t
      refine List.pairwise_of_forall_mem_list fun u hu v hv => ?_
      rw [mem_ends_close_iff] at hu hv
      exact Nat.le_of_eq (congrArg List.length (List.cons.inj (hu.symm.trans hv)).2)
    · intro u v hle a ha b hb
      rw [mem_ends_close_iff.1 ha, mem_ends_close_iff.1 hb] at hle
      exact Nat.le_of_succ_le_succ hle
  have havoids : Avoids '\n' (seq (runs isPathChar isPathMark) (seq (word ")".toList) nothing)) :=
    .seq (avoids_runs rfl rfl) (.seq (.word (by simp)) .nothing)
  refine forward_of_closed havoids hfirst.longest ?_
  intro m u v hu hpre hv
  rw [matches_closedPath_iff] at hu hv ⊢
  obtain ⟨path, rfl, hpath⟩ := hu
  obtain ⟨path', heq, hpath'⟩ := hv
  obtain ⟨w, rfl⟩ := hpre
  -- both paths end with the parenthesis at the end of `v`, and what is in front of it begins as `path`
  rcases List.eq_nil_or_concat' w with rfl | ⟨w, d, rfl⟩
  · exact ⟨path, List.append_nil _, hpath⟩
  · rw [← List.append_assoc (path ++ [')']), ← List.append_assoc m] at heq
    obtain ⟨rfl, hd⟩ := List.append_inj' heq rfl
    rw [hd, ← List.append_assoc]
    refine ⟨path ++ [')'] ++ w, rfl, hpath'.right isPathMark_of_isPathChar ?_⟩
    rw [List.append_assoc]
    exact hpath.startsWith _

/-- The preferred match of a named link is the longest. -/
theorem longest_linkPattern : linkPattern.Longest := by
  have hname : ∀ m, (plus (char isNameChar)).Matches m → ']' ∉ m := by
    intro m hm hmem
    have hbracket := (forall_of_matches_plus hm).2 ']' hmem
    cases hbracket
  refine longest_word_seq "[".toList (longest_seq_word "(".toList hname ?_)
  -- the URL and the parenthesis are read as one sequence
  have hends : (seq pattern (seq (word ")".toList) nothing)).ends =
      (seq scheme (seq (word "://".toList) (seq (runs isHostChar isHostMark)
        (seq (opt (char (· == '/')))
          (seq (runs isPathChar isPathMark) (seq (word ")".toList) nothing)))))).ends := by
    simp only [pattern, chain, List.foldr_cons, List.foldr_nil, ends_seq, List.flatMap_assoc, ends,
      List.flatMap_singleton]
  have hlongest := longest_schemeHost (forward_closedPath.opt_char (· == '/'))
  unfold Longest at hlongest ⊢
  rwa [← hends] at hlongest

variable {t u : Text} {c : Char}

theorem IsUrl.append_char (h : IsUrl u) (hc : isPathChar c = true) : IsUrl (u ++ [c]) := by
  obtain ⟨s, hs, host, slash, path, rfl, hhost, hslash, hpath⟩ := h
  exact ⟨s, hs, host, slash, path ++ [c], by simp, hhost, hslash, hpath.append_char hc⟩

theorem IsUrl.isPathChar_of_getLast? (h : IsUrl u) (hc : c ∈ u.getLast?) : isPathChar c = true := by
  obtain ⟨s, hs, host, slash, path, rfl, -, -, hpath⟩ := h
  rw [List.getLast?_append_of_ne_nil _ hpath.ne_nil] at hc
  exact hpath.isChar_of_getLast? hc

theorem length?_eq_none_iff : length? t = none ↔ ∀ u, u <+: t → ¬ IsUrl u := by
  rw [length?, Pattern.length?_eq_none_iff (avoids_pattern (c := '\n') rfl)]
  simp only [matches_pattern_iff]

theorem length?_eq_some_iff {n : Nat} :
    length? t = some n ↔
      (∃ u, u <+: t ∧ IsUrl u ∧ u.length = n) ∧ ∀ u, u <+: t → IsUrl u → u.length ≤ n := by
  rw [length?, Pattern.length?_eq_some_iff (avoids_pattern (c := '\n') rfl) longest_pattern]
  simp only [matches_pattern_iff]

theorem linkLength?_eq_none_iff : linkLength? t = none ↔ ∀ u, u <+: t → ¬ IsLink u := by
  rw [linkLength?, Pattern.length?_eq_none_iff (avoids_linkPattern (c := '\n') rfl)]
  simp only [matches_linkPattern_iff]

theorem linkLength?_eq_some_iff {n : Nat} :
    linkLength? t = some n ↔
      (∃ u, u <+: t ∧ IsLink u ∧ u.length = n) ∧ ∀ u, u <+: t → IsLink u → u.length ≤ n := by
  rw [linkLength?,
    Pattern.length?_eq_some_iff (avoids_linkPattern (c := '\n') rfl) longest_linkPattern]
  simp only [matches_linkPattern_iff]

end Url

end DocComment
