import DocComment.Proofs.BlockHtml
import DocComment.Proofs.HtmlGrammar
import DocComment.Proofs.NormalText

/-!
# Comments side by side

An empty comment between two comments keeps them apart. Their normal texts stand one empty line
apart then (`Comment.normalize_append`), and the HTML of the whole is that of the two, one behind the
other (`Comment.toHtml_append`). There is one exception: a run of indented lines goes on over empty
lines, so two such runs become one.
-/

namespace DocComment

namespace Text

theorem trimEnd_reverse_head (t : Text) : Markup.startsWith isWhite (trimEnd t).reverse = false := by
  rw [trimEnd, List.reverse_reverse]
  exact Markup.startsWith_dropWhile isWhite t.reverse

end Text

/-! ### The normal text of two comments -/

namespace Comment
open Markup (startsWith)

/-- An empty line between lines. -/
theorem joinLines_append (started blank : Bool) (ls ms : List Text) :
    joinLines started blank (ls ++ [] :: ms) =
      joinLines started blank ls ++
        if !started && (joinLines started blank ls).isEmpty then joinLines false false ms
        else joinLines true true ms := by
  induction ls generalizing started blank with
  | nil => cases started <;> rfl
  | cons line ls ih =>
    by_cases h : Text.trimEnd line = []
    · rw [List.cons_append, joinLines_empty _ _ h, joinLines_empty _ _ h, ih]
    · have hne : (separator started blank ++ Text.trimEnd line ++ joinLines true false ls).isEmpty =
          false := by
        rw [List.isEmpty_eq_false_iff]
        simp [h]
      rw [List.cons_append, joinLines_cons _ _ h, joinLines_cons _ _ h, ih, hne]
      simp

theorem normalize_append (a b : List Text) :
    normalize (a ++ ["//".toList] ++ b) =
      if normalize a = [] then normalize b
      else if normalize b = [] then normalize a
      else normalize a ++ '\n' :: '\n' :: normalize b := by
  have hlines : (a ++ ["//".toList] ++ b).flatMap (fun raw => Text.lines (body raw)) =
      a.flatMap (fun raw => Text.lines (body raw)) ++
        [] :: b.flatMap fun raw => Text.lines (body raw) := by
    rw [List.flatMap_append, List.flatMap_append, List.append_assoc]
    rfl
  rw [normalize, hlines, joinLines_append, joinLines_blank]
  show normalize a ++ (if (!false && (normalize a).isEmpty) = true then normalize b
    else if normalize b = [] then [] else '\n' :: '\n' :: normalize b) = _
  by_cases ha : normalize a = []
  · simp [ha]
  · by_cases hb : normalize b = [] <;> simp [ha, hb]

theorem startsWith_isNewline_eq_false {t : Text} (h : startsWith isWhite t = false) :
    startsWith isNewline t = false := by
  rw [← Bool.not_eq_true]
  intro hnewline
  obtain ⟨c, u, rfl, hc⟩ := Markup.exists_of_startsWith hnewline
  have hwhite : isWhite c = true := isWhite_of_isBlank (by rw [isBlank, hc, Bool.or_true])
  rw [Markup.startsWith_cons, hwhite] at h
  cases h

/-- A normal text does not end with white space. -/
theorem startsWith_reverse_joinLines (started blank : Bool) (ls : List Text) :
    startsWith isWhite (joinLines started blank ls).reverse = false := by
  induction ls generalizing started blank with
  | nil => rfl
  | cons line ls ih =>
    by_cases h : Text.trimEnd line = []
    · rw [joinLines_empty _ _ h]
      exact ih _ _
    · rw [joinLines_cons _ _ h, List.reverse_append, List.reverse_append]
      by_cases hrest : joinLines true false ls = []
      · rw [hrest, List.reverse_nil, List.nil_append, Markup.startsWith_append _ (by simpa using h)]
        exact Text.trimEnd_reverse_head line
      · rw [Markup.startsWith_append _ (by simpa using hrest)]
        exact ih true false

end Comment

/-! ### Lines and blocks of two texts -/

namespace Markup

/-- A line break keeps its length if the text goes on behind it. -/
theorem breakLength_append_of_drop {t : Text} (h : startsWith isNewline t = true)
    (hdrop : t.drop (breakLength t) ≠ []) (u : Text) : breakLength (t ++ u) = breakLength t := by
  rcases break_cases h with ⟨v, rfl, hn⟩ | ⟨c, v, rfl, -, hn, hcr⟩
  · rw [hn]
    rfl
  · rw [hn] at hdrop
    obtain ⟨d, w, rfl⟩ := List.exists_cons_of_ne_nil hdrop
    rw [hn]
    refine breakLength_eq_one ?_
    intro x hc heq
    obtain ⟨rfl, -⟩ := List.cons.inj heq
    exact hcr w hc rfl

end Markup

namespace Line
open Markup (startsWith breakLength)

/-- The lines with a line feed behind the last one. -/
def closed : List Line → List Line
  | [] => []
  | [l] => [⟨l.content, ['\n']⟩]
  | l :: m :: ls => l :: closed (m :: ls)

/-- The last line is not empty and has no line break. -/
def Unclosed (ls : List Line) : Prop := ∃ l ∈ ls.getLast?, l.kind ≠ .empty ∧ l.brk = []

theorem closed_cons (l : Line) {ls : List Line} (h : ls ≠ []) :
    closed (l :: ls) = l :: closed ls := by
  cases ls with
  | nil => contradiction
  | cons m ls => rfl

theorem closed_append (ls : List Line) {ms : List Line} (h : ms ≠ []) :
    closed (ls ++ ms) = ls ++ closed ms := by
  induction ls with
  | nil => rfl
  | cons l ls ih => rw [List.cons_append, closed_cons l (by simp [h]), ih, List.cons_append]

theorem map_kind_closed (ls : List Line) : (closed ls).map kind = ls.map kind := by
  fun_induction closed ls with
  | case1 => rfl
  | case2 l => rfl
  | case3 l m ls ih => rw [List.map_cons, ih, ← List.map_cons]

theorem closed_ne_nil {ls : List Line} (h : ls ≠ []) : closed ls ≠ [] := by
  intro hnil
  have hmap := map_kind_closed ls
  rw [hnil, List.map_nil, eq_comm, List.map_eq_nil_iff] at hmap
  exact h hmap

theorem Unclosed.ne_nil {ls : List Line} (h : Unclosed ls) : ls ≠ [] := by
  rintro rfl
  obtain ⟨l, hl, -⟩ := h
  cases hl

theorem Unclosed.of_singleton {l : Line} (h : Unclosed [l]) : l.kind ≠ .empty ∧ l.brk = [] := by
  obtain ⟨m, hm, hunclosed⟩ := h
  obtain rfl : l = m := by simpa using hm
  exact hunclosed

theorem Unclosed.of_append {ls ms : List Line} (h : Unclosed (ls ++ ms)) (hms : ms ≠ []) :
    Unclosed ms := by
  obtain ⟨l, hl, hunclosed⟩ := h
  rw [List.getLast?_append_of_ne_nil _ hms] at hl
  exact ⟨l, hl, hunclosed⟩

theorem Unclosed.texts_ne_nil {ls : List Line} (h : Unclosed ls) : texts ls ≠ [] := by
  obtain ⟨l, hl, hkind, -⟩ := h
  intro hnil
  have htext : l.text = [] := List.flatMap_eq_nil_iff.1 hnil l (List.mem_of_getLast? hl)
  have hcontent : l.content = [] := (List.append_eq_nil_iff.1 htext).1
  exact hkind (by rw [kind, hcontent])

/-- Closing the last line changes the kind of none. -/
theorem exists_closed (l : Line) (ls : List Line) :
    ∃ m ms, closed (l :: ls) = m :: ms ∧ m.kind = l.kind ∧ ms.map kind = ls.map kind := by
  have hmap := map_kind_closed (l :: ls)
  cases hclosed : closed (l :: ls) with
  | nil =>
    rw [hclosed] at hmap
    cases hmap
  | cons m ms =>
    rw [hclosed, List.map_cons, List.map_cons] at hmap
    obtain ⟨hkind, hmap⟩ := List.cons.inj hmap
    exact ⟨m, ms, rfl, hkind, hmap⟩

theorem isProse_of_map_kind {ls ms : List Line} (h : ms.map kind = ls.map kind) {b : Bool}
    (hls : ∀ l ∈ ls, l.isProse = b) : ∀ m ∈ ms, m.isProse = b := by
  intro m hm
  have hmem : m.kind ∈ ls.map kind := h ▸ List.mem_map_of_mem hm
  obtain ⟨l, hl, hkind⟩ := List.mem_map.1 hmem
  rw [isProse, ← hkind]
  exact hls l hl

theorem body_cons_of_ne_nil (l : Line) {ls : List Line} (h : ls ≠ []) :
    body (l :: ls) = l.text ++ body ls := by
  cases ls with
  | nil => contradiction
  | cons m ls => rfl

theorem body_closed {ls : List Line} (h : Unclosed ls) : body (closed ls) = texts ls := by
  fun_induction closed ls with
  | case1 => exact absurd rfl h.ne_nil
  | case2 l =>
    rw [texts_singleton, text, h.of_singleton.2, List.append_nil]
    rfl
  | case3 l m ls ih =>
    rw [body_cons_of_ne_nil l (closed_ne_nil (by simp)), ih h]
    rfl

theorem texts_closed {ls : List Line} (h : Unclosed ls) : texts (closed ls) = texts ls ++ ['\n'] := by
  fun_induction closed ls with
  | case1 => exact absurd rfl h.ne_nil
  | case2 l =>
    rw [texts_singleton, texts_singleton, text, text, h.of_singleton.2, List.append_nil]
  | case3 l m ls ih =>
    rw [texts_cons, ih h, texts_cons l, List.append_assoc]

theorem kind_cons_ne_empty (c : Char) (t brk : Text) : kind ⟨c :: t, brk⟩ ≠ .empty := by
  unfold kind
  dsimp only
  split <;> simp

/-- The lines of two texts, of which the first one ends within a line. -/
theorem ofText_append {t : Text} (hne : t ≠ []) (hend : startsWith isNewline t.reverse = false)
    (u : Text) : Unclosed (ofText t) ∧ ofText (t ++ '\n' :: u) = closed (ofText t) ++ ofText u := by
  induction t using Markup.break_induction with
  | nil => contradiction
  | brk t h ih =>
    have hsplit := List.take_append_drop (breakLength t) t
    have hlast := Markup.startsWith_reverse_newlines (Markup.take_breakLength_ne_nil h)
      (Markup.newlines_take_breakLength h)
    have hdrop : t.drop (breakLength t) ≠ [] := by
      intro hnil
      rw [hnil, List.append_nil] at hsplit
      rw [hsplit, hend] at hlast
      cases hlast
    rw [← hsplit, List.reverse_append, Markup.startsWith_append _ (by simpa using hdrop)] at hend
    obtain ⟨hunclosed, happend⟩ := ih hdrop hend
    have hlength : breakLength t ≤ t.length := by
      have := List.length_pos_iff.2 hdrop
      rw [List.length_drop] at this
      omega
    have hstart : startsWith isNewline (t ++ '\n' :: u) = true := by
      rw [Markup.startsWith_append _ hne]
      exact h
    obtain ⟨l, ls, hls, -⟩ := exists_ofText (t.drop (breakLength t))
    rw [hls] at hunclosed
    rw [ofText_break h, ofText_break hstart, Markup.breakLength_append_of_drop h hdrop,
      List.take_append_of_le_length hlength, List.drop_append_of_le_length hlength, happend, hls]
    exact ⟨hunclosed, rfl⟩
  | char c t h ih =>
    by_cases ht : t = []
    · subst ht
      rw [List.singleton_append, ofText_char h, ofText_char h, ofText_break (t := '\n' :: u) rfl]
      exact ⟨⟨_, rfl, kind_cons_ne_empty c [] [], rfl⟩, rfl⟩
    · rw [List.reverse_cons, Markup.startsWith_append _ (by simpa using ht)] at hend
      obtain ⟨hunclosed, happend⟩ := ih ht hend
      obtain ⟨l, ls, hls, -⟩ := exists_ofText t
      rw [hls] at hunclosed happend
      rw [List.cons_append, ofText_char h, ofText_char h, happend, hls]
      cases ls with
      | nil =>
        exact ⟨⟨_, rfl, kind_cons_ne_empty c _ _, hunclosed.of_singleton.2⟩, rfl⟩
      | cons m ls => exact ⟨hunclosed, rfl⟩

theorem texts_append (ls ms : List Line) : texts (ls ++ ms) = texts ls ++ texts ms :=
  List.flatMap_append

theorem isProse_eq_false {l : Line} (h : l.kind ≠ .prose) : l.isProse = false :=
  beq_false_of_ne h

theorem kind_eq_indented {l : Line} (hne : l.kind ≠ .empty) (hprose : l.isProse = false) :
    l.kind = .indented := by
  cases hkind : l.kind with
  | empty => exact absurd hkind hne
  | indented => rfl
  | prose =>
    rw [isProse_iff.2 hkind] at hprose
    cases hprose

theorem newlines_texts {ls : List Line} (hkind : ∀ l ∈ ls, l.kind = .empty)
    (hbrk : ∀ l ∈ ls, Newlines l.brk) : Newlines (texts ls) := by
  intro c hc
  obtain ⟨l, hl, hc⟩ := List.mem_flatMap.1 hc
  have hcontent : l.content = [] := by
    have hempty := hkind l hl
    unfold kind at hempty
    split at hempty
    · assumption
    · split at hempty <;> cases hempty
  rw [text, hcontent] at hc
  exact hbrk l hl c hc

theorem newlines_brk (t : Text) : ∀ l ∈ ofText t, Newlines l.brk := by
  induction t using Markup.break_induction with
  | nil =>
    intro l hl
    obtain rfl := List.mem_singleton.1 hl
    exact .nil
  | brk t h ih =>
    rw [ofText_break h]
    exact List.forall_mem_cons.2 ⟨Markup.newlines_take_breakLength h, ih⟩
  | char c t h ih =>
    obtain ⟨l, ls, hls, -⟩ := exists_ofText t
    rw [ofText_char h, hls]
    rw [hls] at ih
    exact List.forall_mem_cons.2 (List.forall_mem_cons.1 ih)

end Line

namespace Block
open Line (texts body closed Unclosed)

/-- The HTML of lines. -/
def htmlOfLines (ls : List Line) : Text := (ofLines 0 ls).flatMap html

theorem flatMap_html_ofLines (n m : Nat) (ls : List Line) :
    (ofLines n ls).flatMap html = (ofLines m ls).flatMap html := by
  fun_induction ofLines n ls generalizing m with
  | case1 n => rw [ofLines_nil]
  | case2 n l ls hkind ih => rw [ofLines_empty _ hkind, ih]
  | case3 n l ls hkind run ih =>
    rw [ofLines_indented _ hkind, List.flatMap_cons, List.flatMap_cons, ih, html_start _ n m]
  | case4 n l ls hkind run rest ih =>
    rw [ofLines_prose _ hkind, List.flatMap_cons, List.flatMap_cons, ih, html_start _ n m]

theorem htmlOfLines_nil : htmlOfLines [] = [] := by
  rw [htmlOfLines, ofLines_nil]
  rfl

theorem htmlOfLines_empty {l : Line} (h : l.kind = .empty) (ls : List Line) :
    htmlOfLines (l :: ls) = htmlOfLines ls := by
  rw [htmlOfLines, ofLines_empty _ h]
  exact flatMap_html_ofLines _ _ _

/-- Lines in front of a prose line or the end, of which the first one is indented and none is
prose. -/
theorem htmlOfLines_indented {l : Line} {run rest : List Line} (h : l.kind = .indented)
    (hrun : ∀ m ∈ run, m.isProse = false) (hrest : ∀ m ∈ rest.head?, m.isProse = true) :
    htmlOfLines (l :: (run ++ rest)) =
      html ⟨.indented, 0, texts (l :: run)⟩ ++ htmlOfLines rest := by
  obtain ⟨htake, hdrop⟩ : (run ++ rest).takeWhile (!·.isProse) = run ∧
      (run ++ rest).dropWhile (!·.isProse) = rest :=
    Node.takeWhile_run (fun m hm => by rw [hrun m hm]; rfl) fun m hm => by rw [hrest m hm]; rfl
  rw [htmlOfLines, ofLines_indented _ h, htake, hdrop, List.flatMap_cons]
  exact congrArg _ (flatMap_html_ofLines _ _ _)

theorem htmlOfLines_indented_end {l : Line} {run : List Line} (h : l.kind = .indented)
    (hrun : ∀ m ∈ run, m.isProse = false) :
    htmlOfLines (l :: run) = html ⟨.indented, 0, texts (l :: run)⟩ := by
  have hhtml : htmlOfLines (l :: (run ++ [])) = _ := htmlOfLines_indented h hrun (by simp)
  rwa [List.append_nil, htmlOfLines_nil, List.append_nil] at hhtml

/-- Prose lines in front of another line or the end. -/
theorem htmlOfLines_prose {l : Line} {run rest : List Line} (h : l.kind = .prose)
    (hrun : ∀ m ∈ run, m.isProse = true) (hrest : ∀ m ∈ rest.head?, m.isProse = false) :
    htmlOfLines (l :: (run ++ rest)) =
      html ⟨.paragraph, 0, proseText (l :: run) rest⟩ ++ htmlOfLines rest := by
  obtain ⟨htake, hdrop⟩ := Node.takeWhile_run hrun hrest
  rw [htmlOfLines, ofLines_prose _ h, htake, hdrop, List.flatMap_cons]
  exact congrArg _ (flatMap_html_ofLines _ _ _)

/-- Behind empty lines a run of indented lines that is not over goes on with an indented line
only. -/
theorem exists_gap {ms : List Line}
    (h : (ms.find? (·.kind != .empty)).map Line.kind ≠ some .indented) :
    ∃ gap rest, ms = gap ++ rest ∧ (∀ m ∈ gap, m.kind = .empty) ∧
      ∀ m ∈ rest.head?, m.isProse = true := by
  induction ms with
  | nil => exact ⟨[], [], rfl, by simp, by simp⟩
  | cons m ms ih =>
    cases hkind : m.kind with
    | empty =>
      rw [List.find?_cons_of_neg (by simp [hkind])] at h
      obtain ⟨gap, rest, rfl, hgap, hrest⟩ := ih h
      exact ⟨m :: gap, rest, rfl, by simpa [hkind] using hgap, hrest⟩
    | indented =>
      rw [List.find?_cons_of_pos (by simp [hkind]), Option.map_some, hkind] at h
      exact absurd rfl h
    | prose => exact ⟨[], m :: ms, rfl, by simp, by simpa using Line.isProse_iff.2 hkind⟩

theorem proseText_eq_body (run : List Line) {rest : List Line} (h : texts rest ≠ []) :
    proseText run rest = body run := by
  rw [proseText, if_neg (by simpa using h)]

theorem html_indented_append (n : Nat) (t : Text) {u : Text} (h : ∀ c ∈ u, isWhite c = true) :
    html ⟨.indented, n, t ++ u⟩ = html ⟨.indented, n, t⟩ := by
  rw [html_indented, html_indented, Text.trimEnd_append h]

theorem htmlOfLines_gap {gap : List Line} (h : ∀ m ∈ gap, m.kind = .empty) (ls : List Line) :
    htmlOfLines (gap ++ ls) = htmlOfLines ls := by
  induction gap with
  | nil => rfl
  | cons m gap ih =>
    obtain ⟨hm, hgap⟩ := List.forall_mem_cons.1 h
    rw [List.cons_append, htmlOfLines_empty hm, ih hgap]

theorem isProse_head?_closed {ls : List Line} (hls : ls ≠ []) {b : Bool}
    (h : ∀ m ∈ ls.head?, m.isProse = b) (ms : List Line) :
    ∀ m ∈ (closed ls ++ ms).head?, m.isProse = b := by
  obtain ⟨l, tail, rfl⟩ := List.exists_cons_of_ne_nil hls
  obtain ⟨m, tail', hclosed, hkind, -⟩ := Line.exists_closed l tail
  have hm : m.isProse = b := by
    rw [Line.isProse, hkind]
    exact h l rfl
  rw [hclosed, List.cons_append]
  simpa using hm

section
variable {l : Line} {tail : List Line}

/-- A paragraph that reaches the last line. -/
theorem htmlOfLines_closed_prose (hls : Unclosed (l :: tail)) (hkind : l.kind = .prose)
    (htail : ∀ m ∈ tail, m.isProse = true) (ms : List Line) :
    htmlOfLines (closed (l :: tail) ++ ⟨[], ['\n']⟩ :: ms) =
      htmlOfLines (l :: tail) ++ htmlOfLines ms := by
  have hself : htmlOfLines (l :: (tail ++ [])) = _ :=
    htmlOfLines_prose hkind htail (by simp)
  have htext : proseText (l :: tail) [] = texts (l :: tail) := rfl
  rw [List.append_nil, htmlOfLines_nil, List.append_nil, htext] at hself
  obtain ⟨m, tail', hclosed, hkind', hmap⟩ := Line.exists_closed l tail
  have hbody := Line.body_closed hls
  rw [hclosed] at hbody ⊢
  rw [List.cons_append, htmlOfLines_prose (hkind'.trans hkind) (Line.isProse_of_map_kind hmap htail)
    (by simp [Line.isProse, Line.kind]), proseText_eq_body _ (by simp [Line.text]), hbody, hself,
    htmlOfLines_empty rfl]

/-- A run of indented lines that reaches the last line. -/
theorem htmlOfLines_closed_indented (hls : Unclosed (l :: tail)) (hkind : l.kind = .indented)
    (htail : ∀ m ∈ tail, m.isProse = false) {ms : List Line} (hms : ∀ m ∈ ms, Newlines m.brk)
    (h : (ms.find? (·.kind != .empty)).map Line.kind ≠ some .indented) :
    htmlOfLines (closed (l :: tail) ++ ⟨[], ['\n']⟩ :: ms) =
      htmlOfLines (l :: tail) ++ htmlOfLines ms := by
  obtain ⟨gap, rest, rfl, hgap, hrest⟩ := exists_gap h
  obtain ⟨m, tail', hclosed, hkind', hmap⟩ := Line.exists_closed l tail
  have htail' := Line.isProse_of_map_kind hmap htail
  have hrun : ∀ k ∈ tail' ++ ⟨[], ['\n']⟩ :: gap, k.isProse = false := by
    refine List.forall_mem_append.2 ⟨htail', List.forall_mem_cons.2 ⟨rfl, fun k hk => ?_⟩⟩
    exact Line.isProse_eq_false (by simp [hgap k hk])
  have htexts : texts (m :: (tail' ++ ⟨[], ['\n']⟩ :: gap)) =
      texts (l :: tail) ++ '\n' :: '\n' :: texts gap := by
    have hclosed' := Line.texts_closed hls
    rw [hclosed] at hclosed'
    rw [← List.cons_append, Line.texts_append, hclosed', List.append_assoc]
    rfl
  have hwhite : ∀ c ∈ '\n' :: '\n' :: texts gap, isWhite c = true := by
    have hgap' := Line.newlines_texts hgap fun k hk => hms k (List.mem_append_left rest hk)
    have hnewlines : Newlines ('\n' :: '\n' :: texts gap) :=
      List.forall_mem_cons.2 ⟨rfl, List.forall_mem_cons.2 ⟨rfl, hgap'⟩⟩
    intro c hc
    refine isWhite_of_isBlank ?_
    rw [isBlank, hnewlines c hc, Bool.or_true]
  have hsplit : closed (l :: tail) ++ ⟨[], ['\n']⟩ :: (gap ++ rest) =
      m :: ((tail' ++ ⟨[], ['\n']⟩ :: gap) ++ rest) := by
    rw [hclosed]
    simp
  rw [hsplit, htmlOfLines_indented (hkind'.trans hkind) hrun hrest, htexts,
    html_indented_append _ _ hwhite, htmlOfLines_indented_end hkind htail, htmlOfLines_gap hgap]

/-- A run that reaches the last line. -/
theorem htmlOfLines_closed_run (hls : Unclosed (l :: tail)) (hl : l.kind ≠ .empty)
    (htail : ∀ m ∈ tail, m.isProse = l.isProse) {ms : List Line} (hms : ∀ m ∈ ms, Newlines m.brk)
    (h : (l :: tail).getLast?.map Line.kind = some .indented →
      (ms.find? (·.kind != .empty)).map Line.kind ≠ some .indented) :
    htmlOfLines (closed (l :: tail) ++ ⟨[], ['\n']⟩ :: ms) =
      htmlOfLines (l :: tail) ++ htmlOfLines ms := by
  cases hkind : l.kind with
  | empty => exact absurd hkind hl
  | prose =>
    rw [Line.isProse_iff.2 hkind] at htail
    exact htmlOfLines_closed_prose hls hkind htail ms
  | indented =>
    have hprose : l.isProse = false := Line.isProse_eq_false (by simp [hkind])
    rw [hprose] at htail
    refine htmlOfLines_closed_indented hls hkind htail hms (h ?_)
    -- the last line is not empty, and no line of the run is prose
    obtain ⟨m, hm, hne, -⟩ := hls
    have hmprose : m.isProse = false := by
      rcases List.mem_cons.1 (List.mem_of_getLast? hm) with rfl | hmem
      · exact hprose
      · exact htail m hmem
    exact Option.map_eq_some_iff.2 ⟨m, hm, Line.kind_eq_indented hne hmprose⟩

/-- The HTML of a run does not depend on what comes behind it, if something does. -/
theorem exists_html_run {run : List Line} (hl : l.kind ≠ .empty)
    (hrun : ∀ m ∈ run, m.isProse = l.isProse) :
    ∃ v, ∀ rest, texts rest ≠ [] → (∀ m ∈ rest.head?, m.isProse = !l.isProse) →
      htmlOfLines (l :: (run ++ rest)) = v ++ htmlOfLines rest := by
  cases hkind : l.kind with
  | empty => exact absurd hkind hl
  | indented =>
    rw [Line.isProse_eq_false (by simp [hkind])] at hrun ⊢
    exact ⟨_, fun rest _ hrest => htmlOfLines_indented hkind hrun hrest⟩
  | prose =>
    rw [Line.isProse_iff.2 hkind] at hrun ⊢
    refine ⟨html ⟨.paragraph, 0, body (l :: run)⟩, fun rest hne hrest => ?_⟩
    rw [htmlOfLines_prose hkind hrun hrest, proseText_eq_body _ hne]

end

/-- Lines whose last one is not empty, an empty line, and other lines. -/
theorem htmlOfLines_closed_append {ls ms : List Line} (hls : Unclosed ls)
    (hms : ∀ m ∈ ms, Newlines m.brk)
    (h : ls.getLast?.map Line.kind = some .indented →
      (ms.find? (·.kind != .empty)).map Line.kind ≠ some .indented) :
    htmlOfLines (closed ls ++ ⟨[], ['\n']⟩ :: ms) = htmlOfLines ls ++ htmlOfLines ms := by
  induction hlen : ls.length using Nat.strong_induction_on generalizing ls with
  | _ len ih =>
    subst hlen
    obtain ⟨l, tail, rfl⟩ := List.exists_cons_of_ne_nil hls.ne_nil
    -- the lines behind a run that ends in front of the last line
    have hstep : ∀ run rest, tail = run ++ rest → rest ≠ [] →
        closed (l :: tail) = l :: (run ++ closed rest) ∧ Unclosed rest ∧
          htmlOfLines (closed rest ++ ⟨[], ['\n']⟩ :: ms) = htmlOfLines rest ++ htmlOfLines ms := by
      rintro run rest rfl hne
      rw [← List.cons_append] at hls h ⊢
      rw [List.getLast?_append_of_ne_nil _ hne] at h
      refine ⟨Line.closed_append (l :: run) hne, hls.of_append hne, ih _ ?_ (hls.of_append hne) h rfl⟩
      simp only [List.length_cons, List.length_append]
      omega
    by_cases hempty : l.kind = .empty
    · have htail : tail ≠ [] := by
        rintro rfl
        exact hls.of_singleton.1 hempty
      obtain ⟨hclosed, -, htail⟩ := hstep [] tail rfl htail
      rw [hclosed, List.nil_append, List.cons_append, htmlOfLines_empty hempty, htail,
        htmlOfLines_empty hempty]
    · have hsplit := List.takeWhile_append_dropWhile (p := fun m => m.isProse == l.isProse) (l := tail)
      have hrun : ∀ m ∈ tail.takeWhile (fun m => m.isProse == l.isProse),
          m.isProse = l.isProse := by
        intro m hm
        simpa using List.mem_takeWhile_imp hm
      by_cases hdrop : tail.dropWhile (fun m => m.isProse == l.isProse) = []
      · rw [hdrop, List.append_nil] at hsplit
        rw [hsplit] at hrun
        exact htmlOfLines_closed_run hls hempty hrun hms h
      · obtain ⟨hclosed, hunclosed, hrest⟩ := hstep _ _ hsplit.symm hdrop
        obtain ⟨v, hv⟩ := exists_html_run hempty hrun
        have hhead : ∀ m ∈ (tail.dropWhile fun m => m.isProse == l.isProse).head?,
            m.isProse = !l.isProse := by
          intro m hm
          have hnot := List.head?_dropWhile_not (fun m => m.isProse == l.isProse) tail
          rw [Option.mem_def.1 hm] at hnot
          exact Bool.eq_not.2 (by simpa using hnot)
        have hself := hv _ hunclosed.texts_ne_nil hhead
        have hboth := hv _ (by simp [Line.texts_append, Line.text])
          (isProse_head?_closed hdrop hhead (⟨[], ['\n']⟩ :: ms))
        rw [hsplit] at hself
        rw [hclosed, List.cons_append, List.append_assoc, hboth, hrest, hself, List.append_assoc]

end Block

namespace Line

/-- The last line of the text is indented. -/
def EndsIndented (t : Text) : Prop := (ofText t).getLast?.map kind = some .indented

/-- The first line of the text is indented, empty lines apart. -/
def BeginsIndented (t : Text) : Prop :=
  ((ofText t).find? (·.kind != .empty)).map kind = some .indented

instance (t : Text) : Decidable (EndsIndented t) := inferInstanceAs (Decidable (_ = _))

instance (t : Text) : Decidable (BeginsIndented t) := inferInstanceAs (Decidable (_ = _))

end Line

namespace Comment
open Line (EndsIndented BeginsIndented)

/-- An empty comment keeps the HTML of two comments apart, unless the first one ends and the second
one begins with an indented line. -/
theorem toHtml_append (a b : List Text)
    (h : ¬ (EndsIndented (normalize a) ∧ BeginsIndented (normalize b))) :
    toHtml (a ++ ["//".toList] ++ b) = toHtml a ++ toHtml b := by
  have hnil : (Block.ofText []).flatMap Block.html = [] := by
    rw [Block.ofText, Block.cut_nil]
    rfl
  rw [toHtml_eq, toHtml_eq, toHtml_eq, normalize_append]
  split
  · next ha => rw [ha, hnil, List.nil_append]
  · next ha =>
    split
    · next hb => rw [hb, hnil, List.append_nil]
    · have hend : Markup.startsWith isNewline (normalize a).reverse = false :=
        startsWith_isNewline_eq_false (startsWith_reverse_joinLines _ _ _)
      obtain ⟨hunclosed, hlines⟩ := Line.ofText_append ha hend ('\n' :: normalize b)
      have hbreak : Line.ofText ('\n' :: normalize b) = ⟨[], ['\n']⟩ :: Line.ofText (normalize b) :=
        Line.ofText_break rfl
      rw [hbreak] at hlines
      have hhtml := Block.htmlOfLines_closed_append hunclosed (Line.newlines_brk (normalize b))
        fun ha hb => h ⟨ha, hb⟩
      rw [← hlines] at hhtml
      exact hhtml

theorem toHtml_append_crossed :
    ¬ (EndsIndented (normalize ["// an *open `span".toList, "//".toList, "//   code".toList]) ∧
      BeginsIndented (normalize ["// closed* here`".toList])) ∧
    toHtml (["// an *open `span".toList, "//".toList, "//   code".toList] ++ ["//".toList] ++
        ["// closed* here`".toList]) =
      toHtml ["// an *open `span".toList, "//".toList, "//   code".toList] ++
        toHtml ["// closed* here`".toList] :=
  have h : ¬ (EndsIndented (normalize ["// an *open `span".toList, "//".toList, "//   code".toList]) ∧
      BeginsIndented (normalize ["// closed* here`".toList])) := by decide
  ⟨h, toHtml_append _ _ h⟩

/-- A comment with one run of indented lines, behind empty ones. -/
theorem toHtml_of_indented {comments : List Text} {gap run : List Line} {l : Line}
    (h : Line.ofText (normalize comments) = gap ++ l :: run) (hgap : ∀ m ∈ gap, m.kind = .empty)
    (hl : l.kind = .indented) (hrun : ∀ m ∈ run, m.isProse = false) :
    toHtml comments = Html.enclose "<pre><code>"
      ((Text.reindent (Text.trimEnd (Line.texts (l :: run)))).flatMap Html.entity)
      "</code></pre>\n" := by
  have hhtml := Block.htmlOfLines_indented_end hl hrun
  rw [Block.html_indented, Html.escape_eq_flatMap] at hhtml
  rw [toHtml_eq, ← hhtml, ← Block.htmlOfLines_gap hgap, ← h]
  rfl

/-- It is not enough that the first line of the second comment is not indented: an empty line in
front of an indented one does not keep the runs apart. -/
theorem toHtml_append_fails_behind_return :
    ¬ ∀ a b : List Text, ¬ (EndsIndented (normalize a) ∧
        (Line.ofText (normalize b)).head?.map Line.kind = some .indented) →
      toHtml (a ++ ["//".toList] ++ b) = toHtml a ++ toHtml b := by
  intro h
  have happend := h ["//  x".toList] ["// \r foo".toList] (by decide)
  have ha : Line.ofText (normalize ["//  x".toList]) = [] ++ [⟨" x".toList, []⟩] := by decide
  have hb : Line.ofText (normalize ["// \r foo".toList]) =
      [⟨[], "\r".toList⟩] ++ [⟨" foo".toList, []⟩] := by decide
  have hboth : Line.ofText (normalize (["//  x".toList] ++ ["//".toList] ++ ["// \r foo".toList])) =
      [] ++ ⟨" x".toList, "\n".toList⟩ ::
        [⟨[], "\n".toList⟩, ⟨[], "\r".toList⟩, ⟨" foo".toList, []⟩] := by decide
  rw [toHtml_of_indented ha (by decide) (by decide) (by decide),
    toHtml_of_indented hb (by decide) (by decide) (by decide),
    toHtml_of_indented hboth (by decide) (by decide) (by decide)] at happend
  revert happend
  decide

end Comment

end DocComment
