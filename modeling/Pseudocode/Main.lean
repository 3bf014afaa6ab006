import Pseudocode.CommandLine
/-!
# The program

Reads files and lines and writes what the command line says. All decisions are made there.
-/
namespace Pseudocode

def Report.write (report : Report) : IO UInt32 := do
  IO.print report.stdout
  IO.eprint report.stderr
  return UInt32.ofNat report.status

/-- Why the operating system refuses, in its own words. -/
def refusal : IO.Error → String
  | .noFileOrDirectory _ _ _ => missingFile
  | .permissionDenied _ _ _ => "Permission denied (os error 13)"
  | e => toString e

/-- The bytes of a file, or why it cannot be read. -/
def readContents (name : String) : IO (Except String (List UInt8)) := do
  try
    return .ok (← IO.FS.readBinFile name).toList
  catch e => return .error (refusal e)

def Job.perform : Job → IO UInt32
  | .done report => report.write
  | .write name bytes failed written => do
    try
      IO.FS.writeBinFile name ⟨bytes.toArray⟩
      written.write
    catch e => (failed (refusal e)).write

/-- The bytes of the next line with its line end, none at the end of the input. -/
partial def readLineBytes (input : IO.FS.Stream) (line : Array UInt8) : IO (List UInt8) := do
  let bytes ← input.read 1
  if h : 0 < bytes.size then
    let b := bytes[0]
    if b = 10 then return (line.push b).toList else readLineBytes input (line.push b)
  else return line.toList

partial def Options.converseAloud (o : Options) (s : Session) (input output : IO.FS.Stream) :
    IO UInt32 := do
  output.putStr Options.prompt
  output.flush
  match ← readLineBytes input #[] with
  | [] =>
    output.putStr "\n"
    return 0
  | line =>
    match decodeText line with
    | .error reason => (unreadable reason).write
    | .ok line =>
      let (out, err, s) := o.answer s line
      output.putStr out
      IO.eprint err
      converseAloud o s input output

def run (args : List String) : IO UInt32 := do
  match Options.ofArguments? args with
  | none => Report.usage.write
  | some o =>
    match o.file with
    | some name => (o.fileJob name (← readContents name)).perform
    | none => o.converseAloud .new (← IO.getStdin) (← IO.getStdout)

end Pseudocode

def main (args : List String) : IO UInt32 := Pseudocode.run args
