import DocComment.Program

/-! # The command `dmcli` -/

namespace DocComment.File

/-- The fault behind an error of the system. Some calls report the number of an error with its sign
turned. -/
def Fault.ofError : IO.Error → Fault
  | .noFileOrDirectory _ code reason | .inappropriateType _ code reason
  | .invalidArgument _ code reason | .permissionDenied _ code reason
  | .resourceExhausted _ code reason | .otherError code reason =>
    ofCode code.toInt32.toInt.natAbs reason.toList
  | e => other 0 e.toString.toList

/-- All bytes of a stream. -/
partial def readToEnd (stream : IO.FS.Stream) (bytes : ByteArray) : IO ByteArray := do
  let chunk ← stream.read 65536
  if chunk.isEmpty then return bytes else readToEnd stream (bytes ++ chunk)

def Source.read (source : Source) : IO (Except Fault ByteArray) := do
  try
    match source with
    | standardInput => return .ok (← readToEnd (← IO.getStdin) .empty)
    | path p => return .ok (← IO.FS.readBinFile (String.ofList p))
  catch e => return .error (.ofError e)

end DocComment.File

open DocComment in
def main (args : List String) : IO UInt32 := do
  let directives := ((← IO.getEnv "RUST_LOG").getD "").toList
  let enabled := (Log.Filter.ofText directives).admits
  let output ← Program.run File.Source.read enabled (args.map String.toList)
  IO.eprint (String.ofList output.err)
  IO.print (String.ofList output.out)
  return output.code
