import DocComment.Markup
import DocComment.Url
import DocComment.Window

/-!
# Scanning a text into tokens

A scanner reads a text from its beginning and hands out one token at a time. Outside paragraphs it
skips line breaks and takes runs of indented lines whole. Inside a paragraph it looks for the next
character that may begin or end markup, and takes what stands before it as plain text.

`Scanner.step` does one step of the work, which may yield no token; the stream of tokens is in
`DocComment.Scanner.Stream`.
-/

namespace DocComment

namespace Scanner

/-- Where a scanner stands. -/
inductive Phase where
  /-- Between blocks. -/
  | block
  /-- Inside a paragraph. -/
  | prose
  /-- Behind the text, in front of the last token. -/
  | finish
  /-- Behind the last token. -/
  | done
deriving DecidableEq, Repr

/-- The two rules of a scanner that save work or guard against misuse. Neither changes the tokens. -/
structure Policy where
  /-- Use the result of an earlier search as long as it does not lie behind. -/
  reuse : Bool := true
  /-- Take no scheme that begins in front of the stretch held. -/
  guarded : Bool := true
deriving DecidableEq, Repr

end Scanner

structure Scanner where
  window : Window
  phase : Scanner.Phase := .block
  /-- A token that has been read and not been handed out. -/
  pending : Option Token := none
  /-- Where the last search for a marker ended. -/
  marker? : Option Nat := none
  /-- Where the last search for a line break or colon ended. -/
  break? : Option Nat := none
  policy : Scanner.Policy := {}

namespace Scanner

def ofText (t : Text) : Scanner := { window := .ofText t }

inductive Step where
  | stop
  /-- No token yet. -/
  | go (s : Scanner)
  /-- A token, and the scanner behind it. -/
  | emit (t : Token) (s : Scanner)

/-- The characters that open markup. -/
def isMarker (c : Char) : Bool := c == '*' || c == '`' || c == '['

/-- The characters that end a line or a scheme. -/
def isBreak (c : Char) : Bool := isNewline c || c == ':'

def read (n : Nat) (s : Scanner) : Scanner := { s with window := s.window.read n }

/-- Reads `n` characters that belong to no token. -/
def skip (n : Nat) (s : Scanner) : Scanner := { s with window := (s.window.read n).release }

/-- Makes a token of the stretch held. -/
def emit (kind : Token.Kind) (s : Scanner) : Step :=
  .emit (s.window.token kind) { s with window := s.window.release }

/-- The offset of the next character of a class: the result of an earlier search, unless it lies
behind, or of a new one. -/
def locate (s : Scanner) (earlier : Option Nat) (p : Char → Bool) : Nat :=
  match earlier with
  | none => s.window.find p
  | some i => if s.policy.reuse && s.window.pos ≤ i then i else s.window.find p

/-- Reads up to the next character that may begin or end markup. -/
def seek (s : Scanner) : Scanner :=
  let marker := s.locate s.marker? isMarker
  let brk := s.locate s.break? isBreak
  { s with
    window := s.window.readTo (min marker brk), marker? := some marker, break? := some brk }

def indentedStep (s : Scanner) : Step :=
  { s.read (Markup.indentedLength s.window.ahead) with phase := .block }.emit .indented

def blockStep (s : Scanner) : Step :=
  let breaks := s.window.ahead.takeWhile isNewline
  let s := s.skip breaks.length
  match s.window.ahead with
  | [] => .go { s with phase := .finish }
  | c :: _ => if isIndent c then s.indentedStep else { s with phase := .prose }.emit .paragraph

/-- The lengths of the URL around the colon ahead, if there is one: in front of the colon, and
behind it. -/
def url? (s : Scanner) : Option (Nat × Nat) :=
  let scheme := s.window.word.reverse
  if s.policy.guarded && s.window.held.length < scheme.length then none
  else if scheme ∈ Url.schemes then
    (Url.length? (scheme ++ s.window.ahead)).map fun n =>
      (scheme.length, n - (scheme.length + 1))
  else none

/-- Takes the URL around the colon ahead. The text in front of it becomes a token of its own, and
the URL waits for its turn. -/
def urlStep (s : Scanner) (scheme rest : Nat) : Step :=
  let t := s.read (rest + 1)
  if s.window.held.length ≤ scheme then t.emit .url
  else
    let url := scheme + 1 + rest
    let text := (t.window.held.drop url).reverse
    let start := t.window.start
    let first := Token.ofText .text text start.toUInt32
    let second :=
      Token.ofText .url (t.window.held.take url).reverse (start + Text.size text).toUInt32
    .emit first { t with window := t.window.release, pending := some second }

/-- A step at a line break inside a paragraph. An indented line or an empty one ends the paragraph,
and the line break then belongs to no token. -/
def breakStep (s : Scanner) : Step :=
  let n := Markup.breakLength s.window.ahead
  let rest := s.window.ahead.drop n
  if Markup.startsWith isIndent rest then
    (s.skip n).indentedStep
  else if Markup.startsWith isNewline rest then
    .go { s.skip (n + Markup.breakLength rest) with phase := .block }
  else .go (s.read n)

/-- A step at a marker, with nothing held. A marker that opens nothing is plain text. -/
def markerStep (s : Scanner) (marker : Char) : Step :=
  if marker = '`' then
    match Markup.codeLength? (s.window.ahead.drop 1) with
    | some n => (s.read (n + 1)).emit .code
    | none => .go (s.read 1)
  else if marker = '*' then
    if Markup.startsWith (· == '*') (s.window.ahead.drop 1) then (s.read 2).emit .doubleStar
    else (s.read 1).emit .star
  else if marker = '[' then
    match Url.linkLength? s.window.ahead with
    | some n => (s.read n).emit .link
    | none => .go (s.read 1)
  else s.breakStep

def proseStep (s : Scanner) : Step :=
  let s := s.seek
  match s.window.ahead with
  | [] =>
    if s.window.held.isEmpty then .go { s with phase := .finish }
    else { s with phase := .finish }.emit .text
  | c :: _ =>
    if c = ':' then
      match s.url? with
      | some (scheme, rest) => s.urlStep scheme rest
      | none => .go (s.read 1)
    else if !s.window.held.isEmpty then s.emit .text
    else s.markerStep c

def step (s : Scanner) : Step :=
  match s.phase with
  | .block => s.blockStep
  | .prose => s.proseStep
  | .finish => { s with window := s.window.release, phase := .done }.emit .finish
  | .done => .stop

end Scanner

end DocComment
