import FoolLang.Text.Decimal
import FoolLang.Tree
/-!
# Outline — a program shown node by node

Each node has a line of its own, indented by two blanks for each node around it.  A use shows the entry it was
resolved to on a line below it.
-/
namespace FoolLang

open Text

/-- A line, with its depth. -/
structure OutlineLine where
  depth : Nat
  label : List Char
  deriving DecidableEq

namespace OutlineLine

def text (l : OutlineLine) : List Char := List.replicate (2 * l.depth) ' ' ++ l.label ++ ['\n']

/-- The line of an entry, or of the lack of one. -/
def ofEntry (d : Nat) : Option Entry → OutlineLine
  | none => ⟨d, "STentry: unresolved".toList⟩
  | some e =>
    ⟨d, "STentry: nestlev ".toList ++ decimal e.level ++ " type ".toList ++ e.ty.text ++ " offset ".toList
      ++ signedDecimal e.offset⟩

/-- The line of a use, under a heading. -/
def ofUse (d : Nat) (heading : List Char) (u : Use) : OutlineLine :=
  ⟨d, heading ++ u.id.chars ++ " at nestlev ".toList ++ decimal u.level⟩

def ofParam (d : Nat) (p : Param) : OutlineLine := ⟨d, "Par: ".toList ++ p.id.chars ++ ' ' :: p.ty.text⟩

def ofField (d : Nat) (f : Field) : OutlineLine :=
  ⟨d, "Field: ".toList ++ f.id.chars ++ ' ' :: f.ty.text ++ " offset ".toList ++ signedDecimal f.offset⟩

end OutlineLine

def boolText (b : Bool) : List Char := if b then "true".toList else "false".toList

mutual

/-- An expression, at depth `d`. -/
def Expr.outline (d : Nat) : Expr → List OutlineLine
  | .int _ n => [⟨d, "Int: ".toList ++ signedDecimal n.toInt⟩]
  | .bool _ b => [⟨d, "Bool: ".toList ++ boolText b⟩]
  | .null _ => [⟨d, "Empty".toList⟩]
  | .binary _ op a b => ⟨d, "Binary: ".toList ++ op.symbol⟩ :: a.outline (d + 1) ++ b.outline (d + 1)
  | .not _ a => ⟨d, "Not".toList⟩ :: a.outline (d + 1)
  | .cond _ c t e => ⟨d, "If".toList⟩ :: c.outline (d + 1) ++ t.outline (d + 1) ++ e.outline (d + 1)
  | .print _ a => ⟨d, "Print".toList⟩ :: a.outline (d + 1)
  | .id _ u => [.ofUse d "Id: ".toList u, .ofEntry (d + 1) u.entry]
  | .call _ u args => .ofUse d "Call: ".toList u :: .ofEntry (d + 1) u.entry :: outlineArgs (d + 1) args
  | .send _ u m entry args =>
    .ofUse d "ClassCall: ".toList u :: .ofEntry (d + 1) u.entry :: ⟨d + 1, "Method: ".toList ++ m.chars⟩
      :: .ofEntry (d + 2) entry :: outlineArgs (d + 1) args
  | .new _ c entry args =>
    ⟨d, "New: ".toList ++ c.chars⟩ :: .ofEntry (d + 1) entry :: outlineArgs (d + 1) args

def outlineArgs (d : Nat) : List Expr → List OutlineLine
  | [] => []
  | e :: es => e.outline d ++ outlineArgs d es

end

mutual

def Dec.outline (d : Nat) : Dec → List OutlineLine
  | .var _ x ty v => ⟨d, "Var: ".toList ++ x.chars ++ ' ' :: ty.text⟩ :: v.outline (d + 1)
  | .func _ x ret params locals body =>
    ⟨d, "Fun: ".toList ++ x.chars ++ ' ' :: (signatureOf params ret).text⟩ :: params.map (.ofParam (d + 1))
      ++ outlineLocals (d + 1) locals ++ body.outline (d + 1)

def outlineLocals (d : Nat) : List Dec → List OutlineLine
  | [] => []
  | x :: xs => x.outline d ++ outlineLocals d xs

end

def Method.outline (d : Nat) (m : Method) : List OutlineLine :=
  ⟨d, "Method: ".toList ++ m.id.chars ++ ' ' :: m.signature.text ++ " offset ".toList ++ signedDecimal m.offset⟩
    :: m.params.map (.ofParam (d + 1)) ++ outlineLocals (d + 1) m.locals ++ m.body.outline (d + 1)

/-- The heading of a class. -/
def Class.heading (c : Class) : List Char :=
  match c.super with
  | none => "Class: ".toList ++ c.id.chars
  | some s => "Class: ".toList ++ c.id.chars ++ " extends ".toList ++ s.chars

def Class.outline (d : Nat) (c : Class) : List OutlineLine :=
  ⟨d, c.heading⟩ :: c.fields.map (.ofField (d + 1)) ++ c.methods.flatMap (Method.outline (d + 1))

namespace Program

def outline : Program → List OutlineLine
  | .letIn cs ds body =>
    ⟨0, "ProgLetIn".toList⟩ :: cs.flatMap (Class.outline 1) ++ outlineLocals 1 ds ++ body.outline 1
  | .expr body => ⟨0, "Prog".toList⟩ :: body.outline 1

/-- A program as text. -/
def render (p : Program) : List Char := p.outline.flatMap OutlineLine.text

end Program
end FoolLang
