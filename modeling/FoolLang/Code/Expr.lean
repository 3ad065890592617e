import FoolLang.Code
import FoolLang.Scope
/-!
# Expr — the code of an expression

The code of an expression leaves its value on the stack.  A frame lies below the frame pointer's cell, which holds
the access link; a use hops along as many links as there are levels between it and its declaration, and then goes by
the offset.  Branch labels are numbered from a given number on, those of a node before those of its parts.

The code of a use without an entry is empty; `Expr.unresolved` tells where there are such uses.
-/
namespace FoolLang

namespace Line

/-- Moves the end of the heap by one cell. -/
def bumpHeap : Code := [.op .lhp, .push 1, .op .add, .op .shp]

/-- Puts the topmost value at the end of the heap. -/
def allocate : Code := [.op .lhp, .op .sw] ++ bumpHeap

/-- The address of the frame that declares a use. -/
def frame (u : Use) (e : Entry) : Code := .op .lfp :: List.replicate (u.level - e.level) (.op .lw)

/-- Goes by an offset from an address and loads what is there. -/
def loadAt (offset : Int) : Code := [.push offset, .op .add, .op .lw]

/-- Leaves an access link twice, the second time to find the routine by. -/
def shareLink : Code := [.op .stm, .op .ltm, .op .ltm]

/-- `1` if the branch to label `n` is taken and `0` otherwise; `n + 1` is the label of the end. -/
def truthOf (b : Branch) (n : Nat) : Code :=
  [.branch b (.branch n), .push 0, .branch .always (.branch (n + 1)), .define (.branch n), .push 1,
   .define (.branch (n + 1))]

end Line

mutual

/-- How many branch labels the code of an expression takes. -/
def Expr.labels : Expr → Nat
  | .int _ _ | .bool _ _ | .null _ | .id _ _ => 0
  | .binary _ op a b =>
    match op with
    | .plus | .minus | .times | .div => a.labels + b.labels
    | _ => a.labels + b.labels + 2
  | .not _ a => a.labels + 2
  | .cond _ c t e => c.labels + t.labels + e.labels + 2
  | .print _ a => a.labels
  | .call _ _ args | .send _ _ _ _ args | .new _ _ _ args => argLabels args

def argLabels : List Expr → Nat
  | [] => 0
  | e :: es => e.labels + argLabels es

end

/-- Code that loads a use. -/
def Use.load (u : Use) : Code :=
  match u.entry with
  | none => []
  | some e => Line.frame u e ++ Line.loadAt e.offset

/-- Code that calls what a use names, once the arguments are on the stack.  A method is found in the dispatch table
that the access link, the object, points at. -/
def Use.invoke (u : Use) : Code :=
  match u.entry with
  | none => []
  | some e =>
    Line.frame u e ++ Line.shareLink ++ (if e.ty.isMethod then [.op .lw] else []) ++ Line.loadAt e.offset ++ [.op .js]

/-- Code that calls a method of the object a use names. -/
def Use.dispatch (u : Use) (method : Option Entry) : Code :=
  match u.entry, method with
  | some e, some m =>
    Line.frame u e ++ Line.loadAt e.offset ++ Line.shareLink ++ [.op .lw] ++ Line.loadAt m.offset ++ [.op .js]
  | _, _ => []

/-- Code that completes an object of `n` fields: the fields go to the heap, the last one first, and after them the
dispatch pointer, found in the global frame. -/
def instantiate (memory n : Nat) (cls : Option Entry) : Code :=
  match cls with
  | none => []
  | some e =>
    (List.replicate n Line.allocate).flatten ++ .push memory :: Line.loadAt e.offset
      ++ [.op .lhp, .op .sw, .op .lhp] ++ Line.bumpHeap

mutual

/-- The code of an expression, on a machine with `memory` cells, with branch labels from number `k` on. -/
def Expr.code (memory k : Nat) : Expr → Code
  | .int _ n => [.push n.toInt]
  | .bool _ b => [.push (if b then 1 else 0)]
  | .null _ => [.push (-1)]
  | .binary _ op a b =>
    match op with
    | .plus => a.code memory k ++ b.code memory (k + a.labels) ++ [.op .add]
    | .minus => a.code memory k ++ b.code memory (k + a.labels) ++ [.op .sub]
    | .times => a.code memory k ++ b.code memory (k + a.labels) ++ [.op .mult]
    | .div => a.code memory k ++ b.code memory (k + a.labels) ++ [.op .div]
    | .equal => a.code memory (k + 2) ++ b.code memory (k + 2 + a.labels) ++ Line.truthOf .ifEqual k
    | .lessEqual => a.code memory (k + 2) ++ b.code memory (k + 2 + a.labels) ++ Line.truthOf .ifLessEq k
    | .greaterEqual => b.code memory (k + 2) ++ a.code memory (k + 2 + b.labels) ++ Line.truthOf .ifLessEq k
    | .and =>
      a.code memory (k + 2) ++ [.push 0, .branch .ifEqual (.branch k)]
        ++ b.code memory (k + 2 + a.labels) ++ [.push 0, .branch .ifEqual (.branch k)]
        ++ [.push 1, .branch .always (.branch (k + 1)), .define (.branch k), .push 0, .define (.branch (k + 1))]
    | .or =>
      a.code memory (k + 2) ++ [.push 1, .branch .ifEqual (.branch k)]
        ++ b.code memory (k + 2 + a.labels) ++ [.push 1, .branch .ifEqual (.branch k)]
        ++ [.push 0, .branch .always (.branch (k + 1)), .define (.branch k), .push 1, .define (.branch (k + 1))]
  | .not _ a =>
    a.code memory (k + 2)
      ++ [.push 1, .branch .ifEqual (.branch k), .push 1, .branch .always (.branch (k + 1)), .define (.branch k),
          .push 0, .define (.branch (k + 1))]
  | .cond _ c t e =>
    c.code memory (k + 2) ++ [.push 1, .branch .ifEqual (.branch k)]
      ++ e.code memory (k + 2 + c.labels) ++ [.branch .always (.branch (k + 1)), .define (.branch k)]
      ++ t.code memory (k + 2 + c.labels + e.labels) ++ [.define (.branch (k + 1))]
  | .print _ a => a.code memory k ++ [.op .print]
  | .id _ u => u.load
  | .call _ u args => .op .lfp :: codeBack memory k args ++ u.invoke
  | .send _ u _ entry args => .op .lfp :: codeBack memory k args ++ u.dispatch entry
  | .new _ _ entry args => codeAll memory k args ++ instantiate memory args.length entry

/-- The code of arguments, first to last. -/
def codeAll (memory k : Nat) : List Expr → Code
  | [] => []
  | e :: es => e.code memory k ++ codeAll memory (k + e.labels) es

/-- The code of arguments, last to first. -/
def codeBack (memory k : Nat) : List Expr → Code
  | [] => []
  | e :: es => codeBack memory k es ++ e.code memory (k + argLabels es)

end

/-- Why there is no code for a program. -/
inductive CodeError
  | unresolved (id : Ident) (line : Nat)
  | missingDispatchTable (id : Ident)
  deriving DecidableEq

def CodeError.message : CodeError → String
  | .unresolved id line => s!"identifier {id} at line {line} was never resolved"
  | .missingDispatchTable id => s!"class {id} has no dispatch table"

/-- Nothing if there is an entry. -/
def needEntry (entry : Option Entry) (id : Ident) (line : Nat) : List CodeError :=
  if entry.isSome then [] else [.unresolved id line]

mutual

/-- The uses without an entry, in the order of the code. -/
def Expr.unresolved : Expr → List CodeError
  | .int _ _ | .bool _ _ | .null _ => []
  | .binary _ op a b =>
    match op with
    | .greaterEqual => b.unresolved ++ a.unresolved
    | _ => a.unresolved ++ b.unresolved
  | .not _ a | .print _ a => a.unresolved
  | .cond _ c t e => c.unresolved ++ e.unresolved ++ t.unresolved
  | .id l u => needEntry u.entry u.id l
  | .call l u args => needEntry u.entry u.id l ++ unresolvedBack args
  | .send l u _ entry args => needEntry u.entry u.id l ++ needEntry entry u.id l ++ unresolvedBack args
  | .new l c entry args => needEntry entry c l ++ unresolvedAll args

def unresolvedAll : List Expr → List CodeError
  | [] => []
  | e :: es => e.unresolved ++ unresolvedAll es

def unresolvedBack : List Expr → List CodeError
  | [] => []
  | e :: es => unresolvedBack es ++ e.unresolved

end
end FoolLang
