import FoolLang.Command
import FoolLang.Compile
import FoolLang.Files
import FoolLang.Tree.Outline
/-!
# Answer — what a command does

A command reads its file, compiles or assembles what it holds, and runs the code or asks for it to be written.  What
it prints and what it reports are kept apart; the exit code is 0 if all went well, 1 if not, and 2 if the arguments
made no sense.  Running takes a bound on the number of instructions, and there is no answer where it is too small.
-/
namespace FoolLang
namespace Command

/-- What a command leaves behind. -/
structure Response where
  code : Nat
  out : List Char
  err : List Char
  deriving DecidableEq

/-- What a command comes to once its file is read: a response, or a file to write first. -/
inductive Answer
  | done (r : Response)
  | write (path text : List Char) (out : List Char)

def line (s : String) : List Char := s.toList ++ ['\n']

/-- A failure after `out` was printed. -/
def failed (out : List Char) (report : List Char) : Answer := .done ⟨1, out, report⟩

namespace Report

/-- The report of a source that does not compile: every front-end error has a line. -/
def ofCompile (file : String) (source : List Char) : CompileError → List Char
  | .frontEnd errors =>
    let n := errors.length
    errors.flatMap (fun e => line e.message) ++ line s!"You had {n} front-end error(s)."
  | e => line (e.message file source)

/-- The report of code that does not run: what happened, and then its cause. -/
def ofExecute (e : ExecError) : List Char := line (e.message ++ ": " ++ e.cause)

def ofRead (path : String) (e : FileError) : List Char := line (s!"failed to read {path}: " ++ e.message)

def ofWrite (path : String) (e : FileError) : List Char := line (s!"failed to write {path}: " ++ e.message)

end Report

/-- Runs assembly after `out` was printed. -/
def execAnswer (fuel : Nat) (text : List Char) (memory : Nat) (out : List Char) : Option Answer :=
  match execute fuel text ⟨memory, Limits.standard.code⟩ with
  | .error e => some (failed out (Report.ofExecute e))
  | .ok (_, .running) => none
  | .ok (m, .halted) => some (.done ⟨0, out ++ m.output, []⟩)
  | .ok (m, .faulted f) => some (failed (out ++ m.output) (Report.ofExecute (.fault f)))

/-- The dump of a program, if it is asked for. -/
def dump (printAst : Bool) (p : Program) : List Char := if printAst then p.render else []

/-- What a command comes to, given what its file holds. -/
def answer (fuel : Nat) (c : Command) (content : Except FileError (List Char)) : Option Answer :=
  let file := String.ofList c.file
  match content with
  | .error e => some (failed [] (Report.ofRead file e))
  | .ok text =>
    match c.task with
    | .exec => execAnswer fuel text c.memory []
    | .run printAst =>
      match compile text c.memory with
      | .error e => some (failed [] (Report.ofCompile file text e))
      | .ok done => execAnswer fuel done.code.text c.memory (dump printAst done.program)
    | .compile output printAst =>
      match compile text c.memory with
      | .error e => some (failed [] (Report.ofCompile file text e))
      | .ok done =>
        some (.write (output.getD (c.file ++ ".asm".toList)) done.code.text (dump printAst done.program))

/-- The response once a file was written, or could not be. -/
def written (path out : List Char) (result : Except FileError Unit) : Response :=
  let shown := String.ofList path
  match result with
  | .ok _ => ⟨0, out, line s!"Assembly written to {shown}"⟩
  | .error e => ⟨1, out, Report.ofWrite shown e⟩

/-- The response where the arguments name no task. -/
def Stop.response : Stop → Response
  | .version => ⟨0, line "fool 0.1.0", []⟩
  | .help => ⟨0, line "Usage: fool [OPTIONS] <compile|run|exec> FILE", []⟩
  | .usage => ⟨2, [], line "Usage: fool [OPTIONS] <compile|run|exec> FILE"⟩

/-- A command in a directory: its response and the files after it. -/
def invoke (fuel : Nat) (args : List (List Char)) (files : Files) : Option (Response × Files) :=
  match ofArgs args with
  | .error s => some (s.response, files)
  | .ok c =>
    match answer fuel c (files.read c.file) with
    | none => none
    | some (.done r) => some (r, files)
    | some (.write path text out) =>
      match files.write path text with
      | .ok after => some (written path out (.ok ()), after)
      | .error e => some (written path out (.error e), files)

end Command
end FoolLang
