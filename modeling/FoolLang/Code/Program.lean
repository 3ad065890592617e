import FoolLang.Code.Expr
import FoolLang.Scope.Members
/-!
# Program — the code of declarations and programs

The code of a variable leaves its value on the stack, that of a function the entry of its routine, that of a class
the address of its dispatch table, which it first builds on the heap.  The routines themselves follow the main code,
after its `halt`; a routine declared in another one comes before it.  Routines are numbered in the order in which
they are declared, an outer one before those inside it.
-/
namespace FoolLang

/-- A routine: keep the return address, declare the locals, evaluate the body, drop the frame and return. -/
def routineCode (n params locals : Nat) (decs body : Code) : Code :=
  [.define (.routine n), .op .cfp, .op .lra] ++ decs ++ body ++ [.op .stm] ++ List.replicate locals (.op .pop)
    ++ [.op .sra, .op .pop] ++ List.replicate params (.op .pop) ++ [.op .sfp, .op .ltm, .op .lra, .op .js]

mutual

/-- How many branch labels a declaration takes, its routines included. -/
def Dec.labels : Dec → Nat
  | .var _ _ _ v => v.labels
  | .func _ _ _ _ locals body => localLabels locals + body.labels

def localLabels : List Dec → Nat
  | [] => 0
  | d :: ds => d.labels + localLabels ds

end

mutual

/-- How many routines a declaration has. -/
def Dec.routines : Dec → Nat
  | .var _ _ _ _ => 0
  | .func _ _ _ _ locals _ => localRoutines locals + 1

def localRoutines : List Dec → Nat
  | [] => 0
  | d :: ds => d.routines + localRoutines ds

end

/-- The code of a declaration, whose first branch label is `k` and whose first routine is `f`. -/
def Dec.code (memory k f : Nat) : Dec → Code
  | .var _ _ _ v => v.code memory k
  | .func .. => [.pushLabel (.routine f)]

def localCode (memory k f : Nat) : List Dec → Code
  | [] => []
  | d :: ds => d.code memory k f ++ localCode memory (k + d.labels) (f + d.routines) ds

mutual

/-- The code of the routines of a declaration. -/
def Dec.routineCode (memory k f : Nat) : Dec → Code
  | .var _ _ _ _ => []
  | .func _ _ _ params locals body =>
    localRoutineCode memory k (f + 1) locals
      ++ FoolLang.routineCode f params.length locals.length (localCode memory k (f + 1) locals)
        (body.code memory (k + localLabels locals))

def localRoutineCode (memory k f : Nat) : List Dec → Code
  | [] => []
  | d :: ds => d.routineCode memory k f ++ localRoutineCode memory (k + d.labels) (f + d.routines) ds

end

mutual

def Dec.unresolved : Dec → List CodeError
  | .var _ _ _ v => v.unresolved
  | .func _ _ _ _ locals body => localUnresolved locals ++ body.unresolved

def localUnresolved : List Dec → List CodeError
  | [] => []
  | d :: ds => d.unresolved ++ localUnresolved ds

end

namespace Method

def labels (m : Method) : Nat := localLabels m.locals + m.body.labels

def routines (m : Method) : Nat := localRoutines m.locals + 1

def routineCode (memory k f : Nat) (m : Method) : Code :=
  localRoutineCode memory k (f + 1) m.locals
    ++ FoolLang.routineCode f m.params.length m.locals.length (localCode memory k (f + 1) m.locals)
      (m.body.code memory (k + localLabels m.locals))

def unresolved (m : Method) : List CodeError := localUnresolved m.locals ++ m.body.unresolved

end Method

/-- The dispatch tables of the classes so far, the latest first. -/
abbrev Tables := List (Ident × List Label)

/-- A dispatch table after methods whose first routine is `f`. -/
def fillTable (table : List Label) (f : Nat) : List Method → List Label
  | [] => table
  | m :: ms => fillTable (place m.offset.toNat (.routine f) table) (f + m.routines) ms

def methodLabels : List Method → Nat
  | [] => 0
  | m :: ms => m.labels + methodLabels ms

def methodRoutines : List Method → Nat
  | [] => 0
  | m :: ms => m.routines + methodRoutines ms

def methodRoutineCode (memory k f : Nat) : List Method → Code
  | [] => []
  | m :: ms => m.routineCode memory k f ++ methodRoutineCode memory (k + m.labels) (f + m.routines) ms

namespace Class

def labels (c : Class) : Nat := methodLabels c.methods

def routines (c : Class) : Nat := methodRoutines c.methods

/-- The dispatch table of the superclass. -/
def superTable (tables : Tables) (c : Class) : List Label :=
  match c.super with
  | none => []
  | some s => (tables.lookup s).getD []

/-- The dispatch table of a class whose first routine is `f`. -/
def dispatchTable (tables : Tables) (f : Nat) (c : Class) : List Label := fillTable (c.superTable tables) f c.methods

/-- Code that builds a dispatch table on the heap and leaves its address. -/
def tableCode (table : List Label) : Code := .op .lhp :: table.flatMap fun l => .pushLabel l :: Line.allocate

def unresolved (tables : Tables) (c : Class) : List CodeError :=
  (match c.super with
    | none => []
    | some s => if (tables.lookup s).isSome then [] else [.missingDispatchTable s])
  ++ c.methods.flatMap Method.unresolved

end Class

def classLabels : List Class → Nat
  | [] => 0
  | c :: cs => c.labels + classLabels cs

def classRoutines : List Class → Nat
  | [] => 0
  | c :: cs => c.routines + classRoutines cs

def classCode (tables : Tables) (f : Nat) : List Class → Code
  | [] => []
  | c :: cs =>
    let table := c.dispatchTable tables f
    Class.tableCode table ++ classCode ((c.id, table) :: tables) (f + c.routines) cs

def classRoutineCode (memory k f : Nat) : List Class → Code
  | [] => []
  | c :: cs => methodRoutineCode memory k f c.methods ++ classRoutineCode memory (k + c.labels) (f + c.routines) cs

def classUnresolved (tables : Tables) (f : Nat) : List Class → List CodeError
  | [] => []
  | c :: cs =>
    c.unresolved tables ++ classUnresolved ((c.id, c.dispatchTable tables f) :: tables) (f + c.routines) cs

namespace Program

/-- The code of a program, on a machine with `memory` cells. -/
def code (memory : Nat) : Program → Code
  | .letIn cs ds body =>
    let k := classLabels cs
    let f := classRoutines cs
    .push 0 :: classCode [] 0 cs ++ localCode memory k f ds ++ body.code memory (k + localLabels ds) ++ [.op .halt]
      ++ classRoutineCode memory 0 0 cs ++ localRoutineCode memory k f ds
  | .expr body => body.code memory 0 ++ [.op .halt]

/-- What keeps a program from having code, in the order of the code. -/
def unresolved : Program → List CodeError
  | .letIn cs ds body => classUnresolved [] 0 cs ++ localUnresolved ds ++ body.unresolved
  | .expr body => body.unresolved

/-- The code of a program whose uses all have entries. -/
def generate (memory : Nat) (p : Program) : Except CodeError Code :=
  match p.unresolved with
  | [] => .ok (p.code memory)
  | e :: _ => .error e

end Program
end FoolLang
