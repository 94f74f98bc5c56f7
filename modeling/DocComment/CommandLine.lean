import DocComment.Text.Basic

/-! # Command lines

The words of a command line are read from the left. Each is classed on its own, by `Arg.ofText`, and
then added to the settings read so far; the first word that cannot be added ends the reading. -/

namespace DocComment.CommandLine

/-- What is shown of a comment. -/
inductive Command where
  | html
  | text
  | tokens
  | tree
deriving DecidableEq, Repr

/-- The classes of words. -/
inductive Arg where
  | help
  | version
  | verbose
  | json
  | command (c : Command)
  /-- A word that begins with a hyphen and is no option. -/
  | unknown (word : Text)
  /-- The name of a file; a hyphen alone stands for the standard input. -/
  | file (name : Text)
deriving DecidableEq, Repr

namespace Arg

/-- The words with a meaning of their own. -/
def words : List (Text × Arg) :=
  [("-h".toList, help), ("--help".toList, help),
    ("-V".toList, version), ("--version".toList, version),
    ("-v".toList, verbose), ("--verbose".toList, verbose),
    ("-j".toList, json), ("--json".toList, json),
    ("html".toList, command .html), ("text".toList, command .text),
    ("tokens".toList, command .tokens), ("tree".toList, command .tree)]

def ofText (word : Text) : Arg :=
  match words.lookup word with
  | some a => a
  | none =>
    match word with
    | '-' :: _ :: _ => unknown word
    | _ => file word

end Arg

/-- What ends the reading of a command line without a request. -/
inductive Stop where
  | help
  | version
  | unknownOption (word : Text)
  | manyFiles
  | noFile
deriving DecidableEq, Repr

structure Settings where
  command : Command := .html
  file : Option Text := none
  json : Bool := false
  verbose : Bool := false
deriving DecidableEq, Repr

structure Request where
  command : Command
  file : Text
  json : Bool
  verbose : Bool
deriving DecidableEq, Repr

/-- The settings with one more word. -/
def Settings.add (s : Settings) : Arg → Except Stop Settings
  | .help => .error .help
  | .version => .error .version
  | .verbose => .ok { s with verbose := true }
  | .json => .ok { s with json := true }
  | .command c => .ok { s with command := c }
  | .unknown word => .error (.unknownOption word)
  | .file name => if s.file.isSome then .error .manyFiles else .ok { s with file := some name }

def Settings.request (s : Settings) : Except Stop Request :=
  match s.file with
  | none => .error .noFile
  | some file => .ok { command := s.command, file, json := s.json, verbose := s.verbose }

/-- The request of a command line. -/
def Request.ofArgs (args : List Text) : Except Stop Request := do
  let settings ← (args.map Arg.ofText).foldlM Settings.add {}
  settings.request

end DocComment.CommandLine
