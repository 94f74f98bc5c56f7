import DocComment.Pattern
import DocComment.Text.Blank

/-!
# URLs and named links

A URL is a known scheme, `://`, a host and a path: host names separated by dots or colons, at most
one slash, and runs of path characters separated by single punctuation marks. A named link is a URL
behind its name, `[name](url)`. Both are patterns with ordered choice.
-/

namespace DocComment.Url

open Pattern

/-- The schemes of URLs, in the order in which listings show them. -/
def schemes : List Text :=
  ["http", "https", "ftp", "file", "gopher", "mailto", "news", "nntp", "telnet", "wais",
    "prospero"].map String.toList

def isHostChar (c : Char) : Bool := isWord c || c == '@' || c == '-'

def isHostMark (c : Char) : Bool := c == '.' || c == ':'

def isPathChar (c : Char) : Bool :=
  isWord c || ['?', '%', '#', '~', '&', '/', '-', '+', '=', '(', ')'].contains c

def isPathMark (c : Char) : Bool := c == ':' || c == '.' || c == ',' || c == ';'

def isNameChar (c : Char) : Bool := isHostChar c || c == ' '

/-- Matches a scheme; `https` is preferred to `http`. -/
def scheme : Pattern :=
  choice <| seq (word "http".toList) (opt (word "s".toList)) ::
    ["ftp", "file", "gopher", "mailto", "news", "nntp", "telnet", "wais", "prospero"].map fun s =>
      word s.toList

/-- Matches runs of one class, each two separated by one mark of another. -/
def runs (isChar isMark : Char → Bool) : Pattern :=
  seq (plus (char isChar)) (many (seq (char isMark) (plus (char isChar))))

def pattern : Pattern :=
  chain [scheme, word "://".toList, runs isHostChar isHostMark, opt (char (· == '/')),
    runs isPathChar isPathMark]

def linkPattern : Pattern :=
  chain [word "[".toList, plus (char isNameChar), word "](".toList, pattern, word ")".toList]

/-- The number of characters of the URL at the beginning of a text. -/
def length? (t : Text) : Option Nat := pattern.length? t

/-- The number of characters of the named link at the beginning of a text. -/
def linkLength? (t : Text) : Option Nat := linkPattern.length? t

/-- A named link has a character at least. -/
theorem linkLength?_ne_zero (t : Text) : linkLength? t ≠ some 0 :=
  length?_word_cons_seq_ne_zero '[' [] _ t

end DocComment.Url
