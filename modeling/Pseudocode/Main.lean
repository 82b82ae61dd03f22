import Pseudocode.CommandLine

/-!
The program itself: reads the file and the standard input, and prints the report.
-/

namespace Pseudocode

partial def readAll (stream : IO.FS.Stream) (taken : ByteArray) : IO ByteArray := do
  let chunk ← stream.read 65536
  if chunk.isEmpty then return taken else readAll stream (taken ++ chunk)

def readFile? (path : String) : IO (Option Bytes) := do
  try
    let content ← IO.FS.readBinFile path
    return some content.toList
  catch _ => return none

def print (report : Report) : IO UInt32 := do
  let stdout ← IO.getStdout
  let stderr ← IO.getStderr
  stdout.write report.stdout.toByteArray
  stdout.flush
  stderr.write report.stderr.toByteArray
  stderr.flush
  return report.code.toUInt32

end Pseudocode

open Pseudocode in
def main (arguments : List String) : IO UInt32 := do
  match Invocation.ofArguments? (arguments.map String.toList) with
  | none =>
      let stderr ← IO.getStderr
      stderr.putStr (String.ofList Invocation.usage)
      return 2
  | some invocation =>
      match invocation.prepare (← readFile? (String.ofList invocation.path)) with
      | .error report => print report
      | .ok program =>
          let input ← readAll (← IO.getStdin) ByteArray.empty
          print (invocation.execute program input.toList)
