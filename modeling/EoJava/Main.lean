import EoJava.Build.Command

/-!
# The `eoc` command

The command line over the files of the machine. Everything that a build decides is decided by
`Build.Request.run`; here its operations are carried out. The reading of arguments stands for a
library of command lines and is no more than the command needs: `build`, an input, and options in
any order.
-/

namespace EoJava.Command

open Build

/-! ## Arguments -/

/-- What a command line asks for. -/
inductive Invocation where
  | build (request : Request)
  | version
  | usage

/-- The version of the command. -/
def version : String := "0.1.0"

/-- The lines that tell how the command is used. -/
def usageLines : List String :=
  ["eoc v" ++ version, "", "Usage: eoc <command> [options]", "", "Commands:",
    "  build <input>   Compile an EO file to Java sources", "",
    "Run \"eoc --help\" for available commands and options."]

/-- Reads options and the input of a build into a request. -/
def readOptions (input : Option String) (request : Request) : List String → Option Request
  | [] => input.map fun path => { request with input := path }
  | "-o" :: directory :: rest | "--output" :: directory :: rest =>
    readOptions input { request with output := some directory } rest
  | "--stdout" :: rest => readOptions input { request with print := true } rest
  | "-q" :: rest | "--quiet" :: rest => readOptions input { request with quiet := true } rest
  | word :: rest =>
    if word.startsWith "-" then none
    else
      match input with
      | none => readOptions (some word) request rest
      | some _ => none

/-- What a command line asks for. -/
def Invocation.ofArguments : List String → Invocation
  | ["-v"] | ["--version"] => .version
  | "build" :: rest =>
    match readOptions none { input := "" } rest with
    | some request => .build request
    | none => .usage
  | _ => .usage

/-! ## Files -/

/-- The error that a file operation of the machine reports. -/
def errorOf (action : FileAction) : IO.Error → CodedError
  | .noFileOrDirectory .. => fileError .notFound action
  | .alreadyExists .. => fileError .alreadyExists action
  | .inappropriateType .. => fileError .notDirectory action
  | other => { message := toString other }

/-- The path that an error of the machine names. -/
def pathOf? : IO.Error → Option String
  | .noFileOrDirectory path .. => some path
  | .alreadyExists path .. => path
  | .inappropriateType path .. => path
  | _ => none

/-- Carries out a file operation and turns what it throws into an error. -/
def attempt {α : Type} (action : FileAction) (operation : IO α) : IO (Except CodedError α) := do
  try
    let value ← operation
    pure (.ok value)
  catch problem => pure (.error (errorOf action problem))

/-- The files of the machine. -/
def files : FileSystem IO :=
  .guarded {
    read := fun path => attempt (.openFile path) do
      let bytes ← IO.FS.readBinFile path
      pure bytes.toList
    makeDirectories := fun culprit path => do
      try
        IO.FS.createDirAll path
        pure (.ok ())
      catch problem =>
        let named :=
          match culprit with
          | .asked => path
          | .reached => (pathOf? problem).getD path
        pure (.error (errorOf (.makeDirectory named) problem))
    write := fun path text => attempt (.openFile path) (IO.FS.writeFile path text) }

/-- The machine that the command works on. -/
def host : Host IO where
  files
  printer := fun text => do
    IO.print text
    pure (.ok ())
  say
    | .error message => IO.eprintln ("[ error ] " ++ message)
    | .success message => IO.println ("[ success ] " ++ message)

end EoJava.Command

/-- The `eoc` command. -/
def main (arguments : List String) : IO UInt32 := do
  match EoJava.Command.Invocation.ofArguments arguments with
  | .version =>
    IO.println EoJava.Command.version
    pure 0
  | .usage =>
    EoJava.Command.usageLines.forM fun line => IO.println line
    pure 0
  | .build request => do
    match ← request.run EoJava.Command.host with
    | .ok code => pure code.toUInt32
    | .error thrown =>
      IO.eprintln (thrown.message.toOption.getD "")
      pure 1
