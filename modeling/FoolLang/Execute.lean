import FoolLang.Assembly.Assemble
import FoolLang.Machine
/-!
# Execute — assembly text, assembled and run

The memory of a machine must be addressable with 32-bit integers; that is looked at once the text has assembled.
Running takes a bound on the number of instructions; the machine is still running where the bound is too small.
-/
namespace FoolLang

/-- How many cells a machine has, and how many instructions it can hold. -/
structure Limits where
  memory : Nat
  code : Nat
  deriving DecidableEq

def Limits.standard : Limits := ⟨10000, 10000⟩

/-- Why a text did not run to its `halt`. -/
inductive ExecError
  | assemble (e : Assembly.AsmError)
  | unaddressable (size : Nat)
  | fault (f : Fault)

namespace ExecError

/-- What happened, without the stage at which it did. -/
def cause : ExecError → String
  | assemble e => e.message
  | unaddressable size => s!"memory size {size} is not addressable"
  | fault f => f.message

def message : ExecError → String
  | assemble e => "generated code does not assemble: " ++ e.message
  | e => "runtime error: " ++ e.cause

end ExecError

/-- A machine about to run, if its memory is addressable. -/
def Machine.start (size : Nat) : Except ExecError Machine :=
  if size ≤ Text.maxInt32 then .ok (.fresh size) else .error (.unaddressable size)

/-- Assembles a text and runs at most `fuel` instructions of it. -/
def execute (fuel : Nat) (text : List Char) (limits : Limits) : Except ExecError (Machine × Machine.Status) := do
  let code ← (Assembly.assemble text limits.code).mapError .assemble
  let m ← Machine.start limits.memory
  return Machine.run code.toArray fuel m

end FoolLang
