import FoolLang.Command.Options
import FoolLang.Execute
/-!
# Command — what the arguments ask for

`compile FILE` writes the code of a program to a file, `run FILE` runs a program, `exec FILE` runs assembly, and
`help` explains all of them or the one it is given.  The size of the memory can be given before the subcommand and
after it, where it counts; no other option may stand twice in one of the two places.  Arguments are read from left to
right, and the first fault, or a request for help or version, ends the reading.
-/
namespace FoolLang
namespace Command

/-- Why arguments name no task. -/
inductive Stop
  | usage
  | version
  | help
  deriving DecidableEq

/-- What has been said in one of the two places. -/
structure Given where
  memory : Option Nat
  verbose : Bool
  printAst : Bool
  output : Option (List Char)
  file : Option (List Char)

namespace Given

def nothing : Given := ⟨none, false, false, none, none⟩

/-- One item more. -/
def add (g : Given) : Item → Except Stop Given
  | .flag .version => .error .version
  | .flag .help => .error .help
  | .flag .verbose => if g.verbose then .error .usage else .ok { g with verbose := true }
  | .flag .printAst => if g.printAst then .error .usage else .ok { g with printAst := true }
  | .value .memorySize v =>
    match g.memory, cells? v with
    | none, some n => .ok { g with memory := some n }
    | _, _ => .error .usage
  | .value .output v =>
    if g.output.isSome || v.isEmpty then .error .usage else .ok { g with output := some v }
  | .word w => if g.file.isSome || w.isEmpty then .error .usage else .ok { g with file := some w }
  | _ => .error .usage

def addAll (g : Given) : List Item → Except Stop Given
  | [] => .ok g
  | i :: is =>
    match g.add i with
    | .ok g => addAll g is
    | .error s => .error s

end Given

inductive Task
  | compile (output : Option (List Char)) (printAst : Bool)
  | run (printAst : Bool)
  | exec

end Command

/-- A task, the file it is about, and the memory of the machine. -/
structure Command where
  task : Command.Task
  file : List Char
  memory : Nat
  verbose : Bool

namespace Command

/-- The subcommands. -/
inductive Verb
  | compile | run | exec
  deriving DecidableEq

namespace Verb

def ofText? (w : List Char) : Option Verb :=
  if w = "compile".toList then some compile
  else if w = "run".toList then some run
  else if w = "exec".toList then some exec
  else none

/-- The options after a subcommand. -/
def options : Verb → List Opt
  | compile => [.memorySize, .verbose, .output, .printAst, .help]
  | run => [.memorySize, .verbose, .printAst, .help]
  | exec => [.memorySize, .verbose, .help]

def task (g : Given) : Verb → Task
  | compile => .compile g.output g.printAst
  | run => .run g.printAst
  | exec => .exec

end Verb

/-- The word that asks for help. -/
def helpWord : List Char := "help".toList

/-- What the arguments after that word come to: help as a whole, or on the one subcommand they name. -/
def helpStop : List (List Char) → Stop
  | [] => .help
  | [w] => if w = helpWord || (Verb.ofText? w).isSome then .help else .usage
  | _ => .usage

/-- The options before a subcommand. -/
def leadingOptions : List Opt := [.memorySize, .verbose, .version, .help]

/-- What arguments ask for. -/
def ofArgs (args : List (List Char)) : Except Stop Command := do
  let (items, rest) := leadingItems leadingOptions args
  let before ← Given.nothing.addAll items
  match rest with
  | [] => .error .usage
  | w :: rest =>
    if w = helpWord then .error (helpStop rest)
    else
      match Verb.ofText? w with
      | none => .error .usage
      | some verb =>
        let after ← Given.nothing.addAll (allItems verb.options rest)
        match after.file with
        | none => .error .usage
        | some file =>
          .ok ⟨verb.task after, file, (after.memory <|> before.memory).getD Limits.standard.memory,
            before.verbose || after.verbose⟩

end Command
end FoolLang
