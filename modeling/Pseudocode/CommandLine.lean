import Pseudocode.Bytecode.Listing
import Pseudocode.Image.Basic
import Pseudocode.Session
import Pseudocode.Text.Blank
import Pseudocode.Token.Listing
/-!
# The command line

What the program does with its arguments, given what it reads. With a file it lists the tokens,
prints the tree or runs the expression, from source or from an image; without one it answers line by
line.

Nothing here reads or writes. A `Job` says what is written, and where a file is to be written on the
way, what follows in either case.
-/
namespace Pseudocode

/-- What the program is asked to do (`Args`). -/
structure Options where
  /-- The source or image to run. -/
  file : Option String
  /-- List the tokens instead. -/
  tokens : Bool
  /-- List the tokens instead, each kind by its own name. -/
  tokensDebug : Bool
  /-- List the tokens without colours. -/
  noColour : Bool
  /-- Print the tree instead. -/
  tree : Bool
  /-- List the chunk first. -/
  listing : Bool
  /-- Write the image of the chunk to this file first. -/
  emit : Option String
  image : Bool
  deriving DecidableEq, Repr

namespace Options

def initial : Options := ⟨none, false, false, false, false, false, none, false⟩

/-- The file to run, which may be named once. -/
def withFile (o : Options) (name : String) : Option Options :=
  if o.file.isNone && !name.isEmpty then some { o with file := some name } else none

/-- The file for the image, which may be named once. -/
def withEmit (o : Options) (name : String) : Option Options :=
  if o.emit.isNone && !name.isEmpty then some { o with emit := some name } else none

/-- A switch that may be given once. -/
def withSwitch (o : Options) (switch : String) : Option Options :=
  match switch with
  | "--tokens" => if o.tokens then none else some { o with tokens := true }
  | "--tokens-debug" => if o.tokensDebug then none else some { o with tokensDebug := true }
  | "--no-color" => if o.noColour then none else some { o with noColour := true }
  | "--ast" => if o.tree then none else some { o with tree := true }
  | "--bc" => if o.listing then none else some { o with listing := true }
  | "--image" => if o.image then none else some { o with image := true }
  | _ => none

/-- Does the argument start with a hyphen? A hyphen alone is the name of a file. -/
def isSwitch (arg : String) : Bool := arg.startsWith "-" && arg != "-"

/-- The value in an argument of the form `--emit=value`. -/
def emitValue? (arg : String) : Option String :=
  if arg.startsWith "--emit=" then some (String.ofList (arg.toList.drop 7)) else none

/-- Reads arguments; behind `--` there are only names of files. -/
def read (o : Options) : List String → Option Options
  | [] => some o
  | "--" :: names => names.foldlM withFile o
  | "--emit" :: args =>
    match args with
    | [] => none
    | name :: args =>
      if isSwitch name then none
      else do
        let o ← o.withEmit name
        o.read args
  | arg :: args => do
    let o ← match emitValue? arg with
      | some name => o.withEmit name
      | none => if isSwitch arg then o.withSwitch arg else o.withFile arg
    o.read args

/-- The options that arguments stand for. An image needs a file. -/
def ofArguments? (args : List String) : Option Options := do
  let o ← initial.read args
  if o.image && o.file.isNone then none else some o

/-- Are only tokens asked for (`tokens_only`)? -/
def tokensOnly (o : Options) : Bool := o.tokens || o.tokensDebug

/-- The listing of the tokens of a source (`token_dumper`). -/
def tokenListing (o : Options) (source : String) : String :=
  TokenListing.render ⟨!o.noColour, o.tokensDebug⟩ (tokenize source)

end Options

/-! ## Running a file -/

/-- What the program leaves: its exit code and what it has written. -/
structure Report where
  status : Nat
  stdout : String
  stderr : String
  deriving DecidableEq, Repr

namespace Report

def success (stdout : String) : Report := ⟨0, stdout, ""⟩

def usage : Report := ⟨2, "", ""⟩

/-- The source does not parse or compile. -/
def rejected (stderr : String) : Report := ⟨65, "", stderr ++ "\n"⟩

/-- A file cannot be read or written. -/
def fileFailure (action name reason : String) : Report :=
  ⟨74, "", "Failed to " ++ action ++ " '" ++ name ++ "': " ++ reason ++ "\n"⟩

end Report

inductive Job where
  | done (report : Report)
  /-- A file is written first. What follows depends on whether that succeeds. -/
  | write (name : String) (bytes : List UInt8) (failed : String → Report) (written : Report)

/-- Why a file that is not there cannot be read, nor written where its directory is not. -/
def missingFile : String := "No such file or directory (os error 2)"

/-- The text of bytes read from a file or line. -/
def decodeText (bs : List UInt8) : Except String String :=
  match Text.ofBytes? bs with
  | some text => .ok text
  | none => .error "stream did not contain valid UTF-8"

namespace Options

/-- Runs a chunk and shows its value, behind its listing if that is asked for (`execute`). -/
def execute (o : Options) (s : Session) (c : Chunk) (name : String) : Report :=
  let listing := if o.listing then c.listing s.heap name else ""
  match s.run c with
  | (.ok v, s) => .success (listing ++ v.shown s.heap ++ "\n")
  | (.error e, _) => ⟨70, listing, "Runtime error: " ++ e.message ++ "\n"⟩

def runSource (o : Options) (name source : String) : Job :=
  let s := Session.new
  match compileSource source s.heap with
  | (.error e, _) => .done (.rejected ("Compile error: " ++ e.message))
  | (.ok c, heap) =>
    let report := o.execute { s with heap } c name
    match o.emit with
    | none => .done report
    | some out =>
      let failed (e : ImageError) := Report.fileFailure "write" out e.message
      match Image.ofChunk c heap with
      | .ok image => .write out image.encode (fun reason => failed (.file reason)) report
      | .error e => .done (failed e)

def printTree (source : String) : Report :=
  match parse .standard .standard source with
  | .error e => .rejected ("Parse error: " ++ e.message)
  | .ok ast => .success (((ast.expr.render source).getD "") ++ "\n")

/-- Does what is asked for with a source file, given its contents or why it cannot be read
(`run_file`). -/
def sourceJob (o : Options) (name : String) (contents : Except String (List UInt8)) : Job :=
  match contents.bind decodeText with
  | .error reason => .done (.fileFailure "read" name reason)
  | .ok source =>
    if o.tokensOnly then .done (.success (o.tokenListing source))
    else if o.tree then .done (printTree source)
    else o.runSource name source

/-- Runs an image, given the contents of its file or why it cannot be read (`run_image`). -/
def imageJob (o : Options) (name : String) (contents : Except String (List UInt8)) : Job :=
  let s := Session.new
  let failed (e : ImageError) := Report.fileFailure "load" name e.message
  match contents with
  | .error reason => .done (failed (.file reason))
  | .ok bs =>
    match Image.load bs s.heap with
    | (.error e, _) => .done (failed e)
    | (.ok c, heap) => .done (o.execute { s with heap } c name)

/-- Does what is asked for with a file, given its contents or why it cannot be read. -/
def fileJob (o : Options) (name : String) (contents : Except String (List UInt8)) : Job :=
  if o.image then o.imageJob name contents else o.sourceJob name contents

/-! ## Answering lines -/

/-- What the program writes before it reads a line. -/
def prompt : String := "> "

/-- The answer to a line: what is written to the output and to the error output, and the session
after it. A blank line has no answer. -/
def answer (o : Options) (s : Session) (line : String) : String × String × Session :=
  if Text.isBlankLine line then ("", "", s)
  else if o.tokensOnly then (o.tokenListing line, "", s)
  else
    match s.eval line with
    | (.ok v, s) => (v.shown s.heap ++ "\n", "", s)
    | (.error e, s) => ("", e.message ++ "\n", s)

/-- What is left when a line is not text. -/
def unreadable (reason : String) : Report := ⟨74, "", "Failed to read input: " ++ reason ++ "\n"⟩

/-- Answers lines until there are none, or one is not text (`repl`). -/
def converse (o : Options) : Session → List (List UInt8) → Report
  | _, [] => .success (prompt ++ "\n")
  | s, line :: lines =>
    match decodeText line with
    | .error reason => { unreadable reason with stdout := prompt }
    | .ok line =>
      let (out, err, s) := o.answer s line
      let rest := o.converse s lines
      ⟨rest.status, prompt ++ out ++ rest.stdout, err ++ rest.stderr⟩

end Options

/-- The lines of an input, each with its line end. -/
def splitLines : List UInt8 → List (List UInt8)
  | [] => []
  | b :: bs =>
    if b = 10 then [b] :: splitLines bs
    else
      match splitLines bs with
      | [] => [[b]]
      | line :: lines => (b :: line) :: lines

end Pseudocode
