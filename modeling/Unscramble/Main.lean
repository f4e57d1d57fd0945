import Unscramble.CommandLine

/-! # The program

Runs the command line on real files. -/

namespace Unscramble

/-- Does something that may fail with an error on a path. -/
def onPath (path : String) (act : IO Unit) : IO (Except Error Unit) := do
  try
    act
    return .ok ()
  catch _ => return .error (.io path)

/-- Looks at a path. -/
def readPath (path : String) : IO Found := do
  try
    return .file (← IO.FS.readBinFile path).toList
  catch
    | .noFileOrDirectory .. => return .missing
    | _ => return .unreadable

/-- Puts a file in place by writing a new one next to it first. -/
def replacePath (path : String) (content : Except Error Bytes) : IO (Except Error Unit) := do
  let draft := path ++ ".new"
  match ← onPath path (IO.FS.writeBinFile draft ⟨#[]⟩) with
  | .error e => return .error e
  | .ok () =>
    match content with
    | .error e =>
      IO.FS.removeFile draft
      return .error e
    | .ok bs =>
      onPath path do
        IO.FS.writeBinFile draft ⟨bs.toArray⟩
        IO.FS.rename draft path

/-- The real files as a host. Other programs are not started: a session that is asked for sources
makes their folder and leaves the rest to its caller. -/
def realHost : Host IO where
  read := readPath
  makeFolder path := onPath path (IO.FS.createDirAll path)
  write path content := onPath path (IO.FS.writeBinFile path ⟨content.toArray⟩)
  replace := replacePath
  run program _ := return .error (.io program)

end Unscramble

/-- The program. -/
def main (arguments : List String) : IO UInt32 := do
  let reply ← Unscramble.CommandLine.run Unscramble.realHost arguments
  reply.complaints.forM IO.eprintln
  reply.output.forM IO.println
  return reply.exitCode
