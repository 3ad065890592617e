import FoolLang.Code.Program
import FoolLang.Execute
import FoolLang.Parse
import FoolLang.Scope.Errors
import FoolLang.Typing
/-!
# Compile — from source to code

A source that is no program fails at once.  The errors of its names and those of its types are collected and reported
together; there is code only when there are none.
-/
namespace FoolLang

/-- An error in the names or in the types of a program. -/
inductive Diagnostic
  | name (e : NameError)
  | type (e : TypeError)
  deriving DecidableEq

def Diagnostic.message : Diagnostic → String
  | .name e => e.message
  | .type e => e.message

inductive CompileError
  | parse (e : ParseError)
  | frontEnd (errors : List Diagnostic)
  | code (e : CodeError)

namespace CompileError

/-- The text of an error in a file with the given source. -/
def message (file : String) (source : List Char) : CompileError → String
  | parse e => e.message file source
  | frontEnd errors =>
    let n := errors.length
    s!"{n} front-end error(s)"
  | code e => e.message

end CompileError

/-- A program that has been compiled: its resolved tree, its type and its code. -/
structure Compilation where
  program : Program
  type : Ty
  code : Code

namespace Program

/-- What is known of the classes of a program. -/
def classTable (p : Program) : Classes := ⟨p.mainEnv.hierarchy, p.mainEnv.layouts⟩

/-- The type of the main expression of a program. -/
def mainType (p : Program) : Except TypeError Ty := p.resolve.type p.classTable

/-- The errors outside the main expression's own. -/
def declarationErrors (p : Program) : List Diagnostic :=
  p.nameErrors.map .name ++ (p.resolve.typeErrors p.classTable).map .type

/-- Every error in the names and types of a program.  That the main expression could not be typed for want of an
entry counts only when it is the only error. -/
def diagnostics (p : Program) : List Diagnostic :=
  match p.mainType with
  | .ok _ => p.declarationErrors
  | .error .incomplete => if p.declarationErrors = [] then [.type .incomplete] else p.declarationErrors
  | .error e => p.declarationErrors ++ [.type e]

/-- Compiles a program for a machine with `memory` cells. -/
def compile (memory : Nat) (p : Program) : Except CompileError Compilation :=
  match p.diagnostics, p.mainType with
  | [], .ok ty => do
    let code ← (p.resolve.generate memory).mapError .code
    return ⟨p.resolve, ty, code⟩
  | errors, _ => .error (.frontEnd errors)

end Program

/-- Compiles a source for a machine with `memory` cells. -/
def compile (source : List Char) (memory : Nat) : Except CompileError Compilation := do
  let p ← (parse source).mapError .parse
  p.compile memory

/-- Why a source did not run to its `halt`. -/
inductive RunError
  | compile (e : CompileError)
  | execute (e : ExecError)

/-- Compiles a source and runs at most `fuel` instructions of it. -/
def run (fuel : Nat) (source : List Char) (limits : Limits) :
    Except RunError (Compilation × Machine × Machine.Status) := do
  let c ← (compile source limits.memory).mapError .compile
  let (m, status) ← (execute fuel c.code.text limits).mapError .execute
  return (c, m, status)

end FoolLang
