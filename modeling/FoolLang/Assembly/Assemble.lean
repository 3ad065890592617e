import Std.Data.TreeMap
import FoolLang.Assembly.Word
import FoolLang.Text.Quoted
/-!
# Assemble — from text to instructions

The words are read once, in order: a label definition notes how many instructions came before it, an instruction
that mentions a label keeps the name.  Then every name is replaced by the noted number.  The first fault in the order
of the text wins; a label nobody defined counts only when there is no other, and the size of the whole comes last.
-/
namespace FoolLang
namespace Assembly

open Text

inductive AsmError
  | invalidToken (text : List Char) (line : Nat)
  | unexpectedToken (text : List Char) (line : Nat)
  | missingOperand (mnemonic : List Char) (line : Nat)
  | undefinedLabel (label : Ident) (line : Nat)
  | duplicateLabel (label : Ident) (line : Nat)
  | codeTooLarge (size limit : Nat)

namespace AsmError

def message : AsmError → String
  | invalidToken text line => s!"line {line}: invalid token " ++ quote text
  | unexpectedToken text line => s!"line {line}: unexpected " ++ quote text
  | missingOperand mnemonic line =>
    let m := String.ofList mnemonic
    s!"line {line}: {m} requires an operand"
  | undefinedLabel label line => s!"line {line}: label {label} is not defined"
  | duplicateLabel label line => s!"line {line}: label {label} is already defined"
  | codeTooLarge size limit => s!"program has {size} instructions, the code area holds {limit}"

end AsmError

/-- An instruction whose label is still a name; with a name comes the line it is mentioned on. -/
inductive Unlinked
  | push (v : Int)
  | pushLabel (x : Ident) (line : Nat)
  | branch (b : Branch) (x : Ident) (line : Nat)
  | op (o : Op)

/-- How many instructions precede each label. -/
structure Labels where
  table : Std.TreeMap (List Char) Nat

namespace Labels

def empty : Labels := ⟨∅⟩

def find? (ls : Labels) (x : Ident) : Option Nat := ls.table[x.chars]?

def define (ls : Labels) (x : Ident) (n : Nat) : Labels := ⟨ls.table.insert x.chars n⟩

theorem find?_empty (x : Ident) : empty.find? x = none := by simp [empty, find?]

theorem find?_define (ls : Labels) (x y : Ident) (n : Nat) :
    (ls.define x n).find? y = if x = y then some n else ls.find? y := by
  obtain ⟨x⟩ := x
  obtain ⟨y⟩ := y
  simp [find?, define, Std.TreeMap.getElem?_insert]

end Labels

/-- Reads the words after `n` instructions and the labels defined so far. -/
def collect (labels : Labels) (n : Nat) : List WordAt → Except AsmError (List Unlinked × Labels)
  | [] => .ok ([], labels)
  | w :: ws =>
    match w.word with
    | none => .error (.invalidToken w.text w.line)
    | some .colon => .error (.unexpectedToken [':'] w.line)
    | some (.num v) => .error (.unexpectedToken (signedDecimal v) w.line)
    | some (.op o) => (collect labels (n + 1) ws).map fun (code, ls) => (.op o :: code, ls)
    | some .push =>
      match ws with
      | ⟨some (.num v), _, _⟩ :: ws => (collect labels (n + 1) ws).map fun (code, ls) => (.push v :: code, ls)
      | ⟨some (.label x), _, _⟩ :: ws =>
        (collect labels (n + 1) ws).map fun (code, ls) => (.pushLabel x w.line :: code, ls)
      | _ => .error (.missingOperand Instr.pushMnemonic w.line)
    | some (.branch b) =>
      match ws with
      | ⟨some (.label x), _, _⟩ :: ws =>
        (collect labels (n + 1) ws).map fun (code, ls) => (.branch b x w.line :: code, ls)
      | _ => .error (.missingOperand b.mnemonic w.line)
    | some (.label x) =>
      match ws with
      | ⟨some .colon, _, _⟩ :: ws =>
        if (labels.find? x).isSome then .error (.duplicateLabel x w.line) else collect (labels.define x n) n ws
      | _ => .error (.unexpectedToken x.chars w.line)

/-- An instruction with its label replaced.  A number that is pushed must be a 32-bit integer. -/
def link (labels : Labels) : Unlinked → Except AsmError Instr
  | .push v => .ok (.push (Int32.ofInt v))
  | .op o => .ok (.op o)
  | .pushLabel x line =>
    match labels.find? x with
    | none => .error (.undefinedLabel x line)
    | some a => if a ≤ maxInt32 then .ok (.push (Int32.ofNat a)) else .error (.codeTooLarge a maxInt32)
  | .branch b x line =>
    match labels.find? x with
    | none => .error (.undefinedLabel x line)
    | some a => .ok (.branch b a)

def linkAll (labels : Labels) : List Unlinked → Except AsmError (List Instr)
  | [] => .ok []
  | u :: us => do
    let i ← link labels u
    let is ← linkAll labels us
    return i :: is

/-- The instructions of a text, at most `limit` of them. -/
def assemble (text : List Char) (limit : Nat) : Except AsmError (List Instr) := do
  let (code, labels) ← collect .empty 0 (scan text)
  let out ← linkAll labels code
  if out.length ≤ limit then .ok out else .error (.codeTooLarge out.length limit)

end Assembly
end FoolLang
