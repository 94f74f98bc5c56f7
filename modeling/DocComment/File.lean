import DocComment.Text.Basic

/-! # What a program reads, and how that can fail

A name stands for a file or for the standard input. How a source is read is left to the system; what
is read has to be text. -/

namespace DocComment.File

/-- Why a file could not be read. -/
inductive Fault where
  | missing
  | denied
  | notDirectory
  | directory
  | nameTooLong
  | notText
  /-- Any other fault of the system, by its number. -/
  | other (code : Nat) (reason : Text)
deriving DecidableEq, Repr

namespace Fault

/-- The fault that a system reports with a number and a reason. -/
def ofCode (code : Nat) (reason : Text) : Fault :=
  match code with
  | 2 => missing
  | 13 => denied
  | 20 => notDirectory
  | 21 => directory
  | 36 => nameTooLong
  | _ => other code reason

def systemMessage (reason : Text) (code : Nat) : Text :=
  reason ++ " (os error ".toList ++ Text.ofNat code ++ ")".toList

def message : Fault → Text
  | missing => systemMessage "No such file or directory".toList 2
  | denied => systemMessage "Permission denied".toList 13
  | notDirectory => systemMessage "Not a directory".toList 20
  | directory => systemMessage "Is a directory".toList 21
  | nameTooLong => systemMessage "File name too long".toList 36
  | notText => "stream did not contain valid UTF-8".toList
  | other code reason => systemMessage reason code

end Fault

/-- The text that a file holds. -/
def decode (bytes : ByteArray) : Except Fault Text :=
  match String.fromUTF8? bytes with
  | some s => .ok s.toList
  | none => .error .notText

/-- What a program can be asked to read. -/
inductive Source where
  | standardInput
  | path (p : Text)
deriving DecidableEq, Repr

/-- The source of a name: a hyphen alone stands for the standard input. -/
def Source.ofName (name : Text) : Source := if name = ['-'] then standardInput else path name

end DocComment.File
