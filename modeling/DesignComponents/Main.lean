import DesignComponents.Command.Run

/-! The command line. Files come from the file system, what a run prints goes to standard output,
and what it tells besides goes to standard error. -/

open DesignComponents Command

/-- Reads a file as text. -/
def readText (path : String) : IO (Except ReadError String) := do
  try
    let bytes ← IO.FS.readBinFile path
    match String.fromUTF8? bytes with
    | some text => pure (.ok text)
    | none => pure (.error .notText)
  catch
    | .inappropriateType _ 21 _ => pure (.error .isDirectory)
    | .inappropriateType .. => pure (.error .notDirectory)
    | .invalidArgument .. => pure (.error .nameTooLong)
    | _ => pure (.error .notFound)

def main (args : List String) : IO UInt32 := do
  let o ← run readText args
  for n in o.notices do
    IO.eprintln (n.level ++ " " ++ n.message)
  IO.print o.output
  match o.error with
  | some e => IO.eprintln ("error: " ++ e.message)
  | none => pure ()
  pure (UInt32.ofNat o.code)
