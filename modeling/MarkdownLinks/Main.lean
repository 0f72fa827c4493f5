import MarkdownLinks.CommandLine

/-!
# The program

Reads standard input or the file named on the command line, runs the command line on it, and prints and writes
what that leaves.
-/

namespace MarkdownLinks

partial def readAll (stream : IO.FS.Stream) (read : ByteArray) : IO ByteArray := do
  let chunk ← stream.read 65536
  if chunk.isEmpty then return read else readAll stream (read ++ chunk)

/-- The entry of the file with the given name, if there is one. -/
def entryOf (name : String) : IO (Option Entry) := do
  try return some (.file (← IO.FS.readBinFile name).toList)
  catch
    | .noFileOrDirectory .. => return none
    | _ => return some .directory

end MarkdownLinks

open MarkdownLinks

def main (args : List String) : IO UInt32 := do
  let argv := args.map String.toList
  let path? := match CommandLine.plan ⟨[]⟩ argv with
    | .ok job => job.path
    | .error _ => some []
  let stdin ← match path? with
    | some _ => pure ByteArray.empty
    | none => readAll (← IO.getStdin) ByteArray.empty
  let name := String.ofList (path?.getD [])
  let path := Path.ofText (path?.getD [])
  let entry ← if name.isEmpty then pure none else entryOf name
  let files : FileTree := ⟨(entry.map fun e => (path, e)).toList⟩
  match CommandLine.run argv stdin.toList files with
  | .error _ =>
    IO.eprintln "Error: the input is not UTF-8 text."
    return 1
  | .ok response =>
    if response.files ≠ files then
      match response.files.read path with
      | .ok bytes => IO.FS.writeBinFile name ⟨bytes.toArray⟩
      | .error _ => pure ()
    (← IO.getStdout).putStr (String.ofList response.stdout)
    (← IO.getStderr).putStr (String.ofList response.stderr)
    return response.status.toUInt32
