import FoolLang.Command.Answer
/-!
# Main — the command line

Reads the file a command names, asks for the answer with more and more fuel until there is one, and carries it out.
-/
namespace FoolLang
namespace Command

/-- What an error of the file system comes to; it has the code 21 where a directory is taken for a file. -/
def fileError : IO.Error → FileError
  | .noFileOrDirectory .. => .notFound
  | .inappropriateType _ code _ => if code = 21 then .isDirectory else .notDirectory
  | e => .other (toString e)

def readFile (path : List Char) : IO (Except FileError (List Char)) := do
  try
    let bytes ← IO.FS.readBinFile (String.ofList path)
    match String.fromUTF8? bytes with
    | some text => return .ok text.toList
    | none => return .error .notText
  catch e => return .error (fileError e)

def writeFile (path text : List Char) : IO (Except FileError Unit) := do
  try
    IO.FS.writeFile (String.ofList path) (String.ofList text)
    return .ok ()
  catch e => return .error (fileError e)

/-- Fuel for all but the longest runs. -/
def plenty : Nat := 1000000000000000000

/-- The answer of a command, with enough fuel. -/
partial def settled (fuel : Nat) (c : Command) (content : Except FileError (List Char)) : IO Answer :=
  match c.answer fuel content with
  | some a => pure a
  | none => settled (2 * fuel) c content

def emit (r : Response) : IO UInt32 := do
  (← IO.getStdout).putStr (String.ofList r.out)
  (← IO.getStderr).putStr (String.ofList r.err)
  return r.code.toUInt32

/-- Carries out what the arguments ask for; the result is the exit code. -/
def perform (args : List String) : IO UInt32 := do
  match ofArgs (args.map String.toList) with
  | .error s => emit s.response
  | .ok c =>
    match ← settled plenty c (← readFile c.file) with
    | .done r => emit r
    | .write path text out => emit (written path out (← writeFile path text))

end Command
end FoolLang

def main (args : List String) : IO UInt32 := FoolLang.Command.perform args
