import DocComment.Proofs.HtmlGrammar
import DocComment.Proofs.PrefixCode
import DocComment.Proofs.TreeShape

/-!
# Reading a tree back from its HTML

The HTML of a tree is a sequence of symbols: tags, and characters of payloads, which may be written
as entities. No symbol is written with a beginning of another one (`Symbol.prefixCode_write`), so the
HTML determines the symbols. A reader that goes through the symbols from the end keeps the lists of
nodes that are under construction on a stack and finds the tree again, up to what HTML does not show
(`Node.settle`): the positions, and how text is divided into neighbouring text nodes.
`Html.render_eq_render_iff` is what follows for two trees.
-/

namespace DocComment

namespace Node

/-- Puts a node in front of others. A text node is dropped if it is empty and merged with a text
node that it comes to stand in front of. -/
def attach (n : Node) (ns : List Node) : List Node :=
  if n.kind = .text then
    if n.data = [] then ns
    else
      match ns with
      | [] => [n]
      | m :: ms => if m.kind = .text then { n with data := n.data ++ m.data } :: ms else n :: m :: ms
  else n :: ns

mutual

/-- The tree without positions, without empty text nodes, and with neighbouring text nodes merged. -/
def settle : Node → Node
  | ⟨kind, _, data, href, children⟩ => ⟨kind, 0, data, href, settleAll children⟩

def settleAll : List Node → List Node
  | [] => []
  | n :: ns => attach n.settle (settleAll ns)

end

theorem attach_of_kind_ne {n : Node} (h : n.kind ≠ .text) (ns : List Node) :
    attach n ns = n :: ns := if_neg h

theorem attach_text_nil (ns : List Node) : attach (leaf .text 0 []) ns = ns := by
  simp [attach, leaf]

theorem attach_text_append (s t : Text) (ns : List Node) :
    attach (leaf .text 0 s) (attach (leaf .text 0 t) ns) = attach (leaf .text 0 (s ++ t)) ns := by
  by_cases hs : s = []
  · rw [hs, attach_text_nil, List.nil_append]
  by_cases ht : t = []
  · rw [ht, attach_text_nil, List.append_nil]
  cases ns with
  | nil => simp [attach, leaf, hs, ht]
  | cons m ms =>
    by_cases hm : m.kind = .text
    · simp [attach, leaf, hs, ht, hm]
    · simp [attach, leaf, hs, ht, hm]

@[simp] theorem textContents_leaf (kind : Kind) (pos : UInt32) (data : Text) :
    textContents [leaf kind pos data] = data := by
  simp [leaf, textContents, textContent]

@[simp] theorem textContents_attach_text (t : Text) :
    textContents (attach (leaf .text 0 t) []) = t := by
  by_cases ht : t = []
  · rw [ht, attach_text_nil]
    rfl
  · have hattach : attach (leaf .text 0 t) [] = [leaf .text 0 t] := by simp [attach, leaf, ht]
    rw [hattach, textContents_leaf]

end Node

namespace Html
open Node (leaf branch settle settleAll attach textContents)

inductive Tag where
  | paragraph
  | preformatted
  | emphasis
  | strong
  | code
  | anchor
deriving DecidableEq

namespace Tag

def opening : Tag → String
  | paragraph => "<p>"
  | preformatted => "<pre>"
  | emphasis => "<em>"
  | strong => "<strong>"
  | code => "<code>"
  | anchor => "<a href=\""

def closing : Tag → String
  | paragraph => "</p>\n"
  | preformatted => "</pre>\n"
  | emphasis => "</em>"
  | strong => "</strong>"
  | code => "</code>"
  | anchor => "</a>"

end Tag

/-- What the HTML of a tree is made of. -/
inductive Symbol where
  /-- A character of a payload. -/
  | char (c : Char)
  | opening (tag : Tag)
  /-- The end of the opening tag of a link, behind the link target. -/
  | target
  | closing (tag : Tag)
deriving DecidableEq

namespace Symbol

def write : Symbol → Text
  | char c => entity c
  | opening tag => tag.opening.toList
  | target => "\">".toList
  | closing tag => tag.closing.toList

@[simp] theorem write_char (c : Char) : (char c).write = entity c := rfl

@[simp] theorem write_opening (tag : Tag) : (opening tag).write = tag.opening.toList := rfl

@[simp] theorem write_target : target.write = "\">".toList := rfl

@[simp] theorem write_closing (tag : Tag) : (closing tag).write = tag.closing.toList := rfl

/-- The symbols that are not written as a character that stands for itself. -/
def marks : List Symbol :=
  ['&', '<', '>', '"', '\''].map char ++
    [.paragraph, .preformatted, .emphasis, .strong, .code, .anchor].map opening ++ [target] ++
    [.paragraph, .preformatted, .emphasis, .strong, .code, .anchor].map closing

theorem mem_marks_or (x : Symbol) : x ∈ marks ∨ ∃ c, isSpecial c = false ∧ x = char c := by
  cases x with
  | char c =>
    cases hc : isSpecial c with
    | false => exact .inr ⟨c, hc, rfl⟩
    | true =>
      rcases cases_of_isSpecial hc with rfl | rfl | rfl | rfl | rfl <;> exact .inl (by decide)
  | opening tag => cases tag <;> exact .inl (by decide)
  | target => exact .inl (by decide)
  | closing tag => cases tag <;> exact .inl (by decide)

theorem exists_write_eq_cons {x : Symbol} (hx : x ∈ marks) :
    ∃ c w, x.write = c :: w ∧ isSpecial c = true := by
  have hall : ∀ x ∈ marks, (x.write.head?.any isSpecial) = true := by decide
  have hhead := hall x hx
  cases hwrite : x.write with
  | nil => simp [hwrite] at hhead
  | cons c w => exact ⟨c, w, rfl, by simpa [hwrite] using hhead⟩

theorem eq_of_write_isPrefix {x y : Symbol} (hx : x ∈ marks) (hy : y ∈ marks)
    (h : x.write <+: y.write) : x = y := by
  have hall : ∀ x ∈ marks, ∀ y ∈ marks, x.write.isPrefixOf y.write = true → x = y := by decide
  exact hall x hx y hy (List.isPrefixOf_iff_prefix.2 h)

theorem prefixCode_write : Text.PrefixCode write := by
  have hplain : ∀ x, x ∉ marks → ∃ c, isSpecial c = false ∧ x = char c := fun x hx =>
    (mem_marks_or x).resolve_left hx
  refine .of_lead isSpecial (· ∈ marks) (fun x => exists_write_eq_cons) (fun x hx => ?_)
    (fun x y hx hy h => ?_) fun x y => eq_of_write_isPrefix
  · obtain ⟨c, hc, rfl⟩ := hplain x hx
    exact ⟨c, entity_eq_singleton hc, hc⟩
  · obtain ⟨c, hc, rfl⟩ := hplain x hx
    obtain ⟨d, hd, rfl⟩ := hplain y hy
    rw [write_char, write_char, entity_eq_singleton hc, entity_eq_singleton hd] at h
    rw [(List.cons.inj h).1]

theorem write_ne_nil (x : Symbol) : x.write ≠ [] := by
  rcases mem_marks_or x with hx | ⟨c, hc, rfl⟩
  · obtain ⟨c, w, hw, -⟩ := exists_write_eq_cons hx
    simp [hw]
  · simp [entity_eq_singleton hc]

theorem flatMap_write_inj {xs ys : List Symbol} (h : xs.flatMap write = ys.flatMap write) :
    xs = ys := by
  refine (prefixCode_write.flatMap_append_inj (· = []) (fun x t => ?_) rfl rfl ?_).1
  · simp [write_ne_nil]
  · rw [h]

end Symbol

open DocComment.Html.Symbol (char opening target closing write)

mutual

/-- The symbols of the HTML of a node. -/
def symbols : Node → List Symbol
  | ⟨kind, _, data, href, children⟩ =>
    match kind with
    | .root => symbolsAll children
    | .paragraph => opening .paragraph :: (symbolsAll children ++ [closing .paragraph])
    | .preformatted =>
      opening .preformatted :: opening .code ::
        (data.map char ++ [closing .code, closing .preformatted])
    | .text => data.map char
    | .emphasis => opening .emphasis :: (symbolsAll children ++ [closing .emphasis])
    | .strong => opening .strong :: (symbolsAll children ++ [closing .strong])
    | .code => opening .code :: (data.map char ++ [closing .code])
    | .anchor =>
      opening .anchor :: (href.map char ++ target :: (data.map char ++ [closing .anchor]))

def symbolsAll : List Node → List Symbol
  | [] => []
  | n :: ns => symbols n ++ symbolsAll ns

end

/-! ### Writing the symbols -/

theorem flatMap_write_map_char (t : Text) : (t.map char).flatMap write = escape t := by
  rw [escape_eq_flatMap, List.flatMap_map]
  rfl

theorem renderAll_eq_flatMap_write {ns : List Node}
    (h : ∀ n ∈ ns, render n = (symbols n).flatMap write) :
    renderAll ns = (symbolsAll ns).flatMap write := by
  induction ns with
  | nil => rfl
  | cons n ns ih =>
    obtain ⟨hn, hns⟩ := List.forall_mem_cons.1 h
    rw [renderAll, symbolsAll, List.flatMap_append, hn, ih hns]

theorem render_eq_flatMap_write {n : Node} (h : n.IsInline) :
    render n = (symbols n).flatMap write := by
  induction h with
  | text pos data => exact (flatMap_write_map_char data).symm
  | code pos data =>
    simp [leaf, render, symbols, enclose, Tag.opening, Tag.closing, flatMap_write_map_char]
  | anchor pos data href =>
    simp [render, symbols, enclose, Tag.opening, Tag.closing, flatMap_write_map_char]
  | emphasis pos _ ih =>
    simp [branch, render, symbols, enclose, Tag.opening, Tag.closing, renderAll_eq_flatMap_write ih]
  | strong pos _ ih =>
    simp [branch, render, symbols, enclose, Tag.opening, Tag.closing, renderAll_eq_flatMap_write ih]

theorem render_block_eq_flatMap_write {b : Node} (h : b.IsBlock) :
    render b = (symbols b).flatMap write := by
  cases h with
  | paragraph pos h =>
    have hns := renderAll_eq_flatMap_write fun n hn => render_eq_flatMap_write (h n hn)
    simp [branch, render, symbols, enclose, Tag.opening, Tag.closing, hns]
  | preformatted pos data =>
    simp [leaf, render, symbols, enclose, Tag.opening, Tag.closing, flatMap_write_map_char]

/-! ### Reading the symbols -/

/-- Reads a symbol from the end of HTML. A closing tag begins a list of nodes, and the opening tag
makes a node of the innermost list, or of the two innermost ones, and puts it in front of the next
one. -/
def read : Symbol → List (List Node) → List (List Node)
  | .char c, ns :: stack => attach (leaf .text 0 [c]) ns :: stack
  | .closing _, stack => [] :: stack
  | .target, stack => [] :: stack
  | .opening .paragraph, inner :: ns :: stack => (branch .paragraph 0 inner :: ns) :: stack
  | .opening .preformatted, inner :: ns :: stack =>
    (leaf .preformatted 0 (textContents inner) :: ns) :: stack
  | .opening .emphasis, inner :: ns :: stack => (branch .emphasis 0 inner :: ns) :: stack
  | .opening .strong, inner :: ns :: stack => (branch .strong 0 inner :: ns) :: stack
  | .opening .code, inner :: ns :: stack => (leaf .code 0 (textContents inner) :: ns) :: stack
  | .opening .anchor, href :: data :: ns :: stack =>
    ({ kind := .anchor, pos := 0, data := textContents data, href := textContents href } :: ns) ::
      stack
  | _, stack => stack

theorem foldr_read_char (t : Text) (ns : List Node) (stack : List (List Node)) :
    (t.map char).foldr read (ns :: stack) = attach (leaf .text 0 t) ns :: stack := by
  induction t with
  | nil => rw [Node.attach_text_nil]; rfl
  | cons c t ih =>
    rw [List.map_cons, List.foldr_cons, ih]
    show attach (leaf .text 0 [c]) (attach (leaf .text 0 t) ns) :: stack = _
    rw [Node.attach_text_append]
    rfl

theorem foldr_read_symbolsAll {ns : List Node}
    (h : ∀ n ∈ ns, ∀ ms stack, (symbols n).foldr read (ms :: stack) = attach n.settle ms :: stack)
    (stack : List (List Node)) :
    (symbolsAll ns).foldr read ([] :: stack) = settleAll ns :: stack := by
  induction ns with
  | nil => rfl
  | cons n ns ih =>
    obtain ⟨hn, hns⟩ := List.forall_mem_cons.1 h
    rw [symbolsAll, List.foldr_append, ih hns, hn, settleAll]

/-- Reading the symbols of an inline node puts it in front of the innermost list. -/
theorem foldr_read_symbols {n : Node} (h : n.IsInline) (ms : List Node)
    (stack : List (List Node)) :
    (symbols n).foldr read (ms :: stack) = attach n.settle ms :: stack := by
  induction h generalizing ms stack with
  | text pos data => exact foldr_read_char data ms stack
  | code pos data =>
    show (opening .code :: (data.map char ++ [closing .code])).foldr read (ms :: stack) =
      (leaf .code 0 data :: ms) :: stack
    simp [read, foldr_read_char]
  | anchor pos data href =>
    show (opening .anchor :: (href.map char ++ target :: (data.map char ++ [closing .anchor]))).foldr
      read (ms :: stack) = ({ kind := .anchor, pos := 0, data := data, href := href } :: ms) :: stack
    simp [read, foldr_read_char]
  | emphasis pos _ ih =>
    simp [branch, symbols, settle, read, foldr_read_symbolsAll ih, Node.attach_of_kind_ne]
  | strong pos _ ih =>
    simp [branch, symbols, settle, read, foldr_read_symbolsAll ih, Node.attach_of_kind_ne]

theorem foldr_read_block {b : Node} (h : b.IsBlock) (ms : List Node) (stack : List (List Node)) :
    (symbols b).foldr read (ms :: stack) = attach b.settle ms :: stack := by
  cases h with
  | paragraph pos h =>
    have hns := foldr_read_symbolsAll fun n hn => foldr_read_symbols (h n hn)
    simp [branch, symbols, settle, read, hns, Node.attach_of_kind_ne]
  | preformatted pos data =>
    show (opening .preformatted :: opening .code :: (data.map char ++ [closing .code,
      closing .preformatted])).foldr read (ms :: stack) = (leaf .preformatted 0 data :: ms) :: stack
    simp [read, foldr_read_char]

/-! ### Trees that look alike -/

theorem renderAll_attach (n : Node) (ns : List Node) :
    renderAll (attach n ns) = render n ++ renderAll ns := by
  obtain ⟨kind, pos, data, href, children⟩ := n
  unfold attach
  split
  · next hkind =>
    obtain rfl : kind = .text := hkind
    split
    · next hdata =>
      obtain rfl : data = [] := hdata
      simp [render, escape_eq_flatMap]
    · split
      · rfl
      · next m ms =>
        split
        · next hm =>
          obtain ⟨kind', pos', data', href', children'⟩ := m
          obtain rfl : kind' = .text := hm
          simp [renderAll, render, escape_append]
        · rfl
  · rfl

theorem renderAll_settleAll {ns : List Node} (h : ∀ n ∈ ns, render n.settle = render n) :
    renderAll (settleAll ns) = renderAll ns := by
  induction ns with
  | nil => rfl
  | cons n ns ih =>
    obtain ⟨hn, hns⟩ := List.forall_mem_cons.1 h
    rw [settleAll, renderAll_attach, hn, ih hns, renderAll]

theorem render_settle {n : Node} (h : n.IsInline) : render n.settle = render n := by
  induction h with
  | text pos data => rfl
  | code pos data => rfl
  | anchor pos data href => rfl
  | emphasis pos _ ih => simp [branch, settle, render, renderAll_settleAll ih]
  | strong pos _ ih => simp [branch, settle, render, renderAll_settleAll ih]

theorem render_settle_block {b : Node} (h : b.IsBlock) : render b.settle = render b := by
  cases h with
  | paragraph pos h =>
    simp [branch, settle, render, renderAll_settleAll fun n hn => render_settle (h n hn)]
  | preformatted pos data => rfl

/-- Two trees have the same HTML if and only if they are the same up to positions and the division
of text into nodes. -/
theorem render_eq_render_iff {t u : Node} (ht : t.IsTree) (hu : u.IsTree) :
    render t = render u ↔ t.settle = u.settle := by
  obtain ⟨pos, ht⟩ := ht
  obtain ⟨pos', hu⟩ := hu
  rename_i bs bs'
  show renderAll bs = renderAll bs' ↔ branch .root 0 (settleAll bs) = branch .root 0 (settleAll bs')
  constructor
  · intro h
    rw [renderAll_eq_flatMap_write fun b hb => render_block_eq_flatMap_write (ht b hb),
      renderAll_eq_flatMap_write fun b hb => render_block_eq_flatMap_write (hu b hb)] at h
    have hread := congrArg (List.foldr read [[]]) (Symbol.flatMap_write_inj h)
    rw [foldr_read_symbolsAll fun b hb => foldr_read_block (ht b hb),
      foldr_read_symbolsAll fun b hb => foldr_read_block (hu b hb)] at hread
    rw [(List.cons.inj hread).1]
  · intro h
    have hsettle : settleAll bs = settleAll bs' := congrArg Node.children h
    rw [← renderAll_settleAll fun b hb => render_settle_block (ht b hb), hsettle,
      renderAll_settleAll fun b hb => render_settle_block (hu b hb)]

/-- A payload that spells tags does not look like the tags. -/
theorem render_eq_render_iff_spelled :
    (branch .root 0 [branch .paragraph 0 [branch .emphasis 0 [leaf .text 1 ['a']]]]).IsTree ∧
      (branch .root 0 [branch .paragraph 0 [leaf .text 0 "<em>a</em>".toList]]).IsTree ∧
      render (branch .root 0 [branch .paragraph 0 [branch .emphasis 0 [leaf .text 1 ['a']]]]) ≠
        render (branch .root 0 [branch .paragraph 0 [leaf .text 0 "<em>a</em>".toList]]) := by
  have ht : (branch .root 0 [branch .paragraph 0 [branch .emphasis 0 [leaf .text 1 ['a']]]]).IsTree :=
    .root 0 (by simpa using .paragraph 0 (by simpa using .emphasis 0 (by simpa using .text 1 ['a'])))
  have hu : (branch .root 0 [branch .paragraph 0 [leaf .text 0 "<em>a</em>".toList]]).IsTree :=
    .root 0 (by simpa using .paragraph 0 (by simpa using .text 0 "<em>a</em>".toList))
  refine ⟨ht, hu, fun h => ?_⟩
  have hsettle := (render_eq_render_iff ht hu).1 h
  simp [branch, leaf, settle, settleAll, attach] at hsettle

end Html

end DocComment
