import DocComment.Comment.Split
import DocComment.CommandLine
import DocComment.Document
import DocComment.File
import DocComment.Listing.Tokens
import DocComment.Listing.Tree
import DocComment.Log
import DocComment.Scanner.Stream

/-! # What the program does

`Program.run` maps a command line to what is written and to the exit code. How a file is read and
which events are logged is left to the caller. Whatever is wrong with a comment is a warning; only a
command line or a file that cannot be read is an error. -/

namespace DocComment.Program

open CommandLine

/-- What a run writes to the two streams, and its exit code. -/
structure Output where
  out : Text := []
  err : Text := []
  code : UInt32 := 0
deriving DecidableEq, Repr

def failure (message : Text) : Output :=
  { err := "error: ".toList ++ message ++ ['\n'], code := 1 }

def usage : Text :=
  ["dmcli - documentation comment renderer",
    "",
    "USAGE:",
    "    dmcli [OPTIONS] [COMMAND] <FILE>",
    "",
    "    FILE holds the raw comment (// lines and /* */ blocks); use - for stdin.",
    "",
    "COMMANDS:",
    "    html        Render the comment as an HTML fragment (default)",
    "    text        Print the normalized comment text",
    "    tokens      Show the token stream",
    "    tree        Show the parse tree",
    "",
    "OPTIONS:",
    "    -v, --verbose    Log pipeline details to stderr",
    "    -j, --json       Output in JSON format",
    "    -h, --help       Print help information",
    "    -V, --version    Print version information",
    "",
    "EXAMPLES:",
    "    dmcli comment.txt           Render a comment to HTML",
    "    dmcli text comment.txt      Print the comment as plain text",
    "    dmcli -j tree comment.txt   Output the parse tree as JSON",
    "    cat comment.txt | dmcli -   Render a comment read from stdin",
    ""].flatMap fun line => line.toList ++ ['\n']

/-- The answer to a command line without a request. -/
def stopped : Stop → Output
  | .help => { err := usage }
  | .version => { out := "dmcli 0.1.0\n".toList }
  | .unknownOption word => failure ("unknown option: ".toList ++ word)
  | .manyFiles => failure "multiple files specified".toList
  | .noFile => failure "no input file specified".toList

def unreadable (file : Text) (fault : File.Fault) : Output :=
  match File.Source.ofName file with
  | .standardInput => failure ("failed to read stdin: ".toList ++ fault.message)
  | .path name => failure ("failed to read '".toList ++ name ++ "': ".toList ++ fault.message)

/-! ### Log events -/

def count (name : String) (n : Nat) : Text × Text := (name.toList, Text.ofNat n)

def splitEvent (s : Split) : Log.Event :=
  { level := .debug, target := "docmark_core::comment".toList
    message := "split comment source".toList
    fields := [count "comments" s.comments.length, count "errors" s.issues.length] }

def readEvent (file : Text) (s : Split) : Log.Event :=
  { level := .debug, target := "dmcli".toList, message := "read comment".toList
    fields := [("file".toList, file), count "comments" s.comments.length] }

/-- The event of a rendering; there is none if the comments have no text. -/
def renderEvent? (comments : List Text) : Option Log.Event :=
  let text := Comment.normalize comments
  if text.isEmpty then none
  else
    some {
      level := .trace, target := "docmark_core".toList, message := "rendered comment".toList
      fields :=
        [count "lines" comments.length, count "text_len" (Text.size text),
          count "blocks" (Comment.toTree comments).children.length,
          count "html_len" (Text.size (Comment.toHtml comments))] }

/-! ### Requests -/

def prettyLine (v : Json) : Text := v.pretty 0 ++ ['\n']

/-- What a request shows of a list of raw comments. -/
def shown (r : Request) (comments : List Text) : Text :=
  match r.command, r.json with
  | .html, false => Comment.toHtml comments
  | .html, true => prettyLine (.record [("html".toList, .text (Comment.toHtml comments))])
  | .text, false => Comment.normalize comments ++ ['\n']
  | .text, true => prettyLine (.record [("text".toList, .text (Comment.normalize comments))])
  | .tokens, false => Listing.tokens (Token.scan (Comment.normalize comments))
  | .tokens, true => prettyLine (.ofTokens (Token.scan (Comment.normalize comments)))
  | .tree, false => Listing.tree (Comment.toTree comments)
  | .tree, true => prettyLine (.ofNode (Comment.toTree comments))

def warning (i : Issue) : Text := "warning: ".toList ++ i.describe ++ ['\n']

/-- Whether an event is logged: of a verbose request those up to `debug`, else those that `enabled`
says. -/
def isLogged (r : Request) (enabled : Log.Event → Bool) (e : Log.Event) : Bool :=
  if r.verbose then e.isUpTo .debug else enabled e

/-- The answer to a request whose file holds `source`. -/
def answer (r : Request) (enabled : Log.Event → Bool) (source : Text) : Output :=
  let split := Split.ofSource source
  let log (e : Log.Event) : Text := if isLogged r enabled e then e.line else []
  let rendered : Text :=
    match r.command, renderEvent? split.comments with
    | .html, some e => log e
    | _, _ => []
  { out := shown r split.comments
    err :=
      log (splitEvent split) ++ split.issues.flatMap warning ++ log (readEvent r.file split) ++
        rendered }

/-- Answers a command line, with `read` to read the file it names and `enabled` to say which events
are logged. -/
def run {m : Type → Type} [Monad m] (read : File.Source → m (Except File.Fault ByteArray))
    (enabled : Log.Event → Bool) (args : List Text) : m Output :=
  match Request.ofArgs args with
  | .error stop => pure (stopped stop)
  | .ok r => do
    match (← read (.ofName r.file)) >>= File.decode with
    | .error fault => pure (unreadable r.file fault)
    | .ok source => pure (answer r enabled source)

end DocComment.Program
