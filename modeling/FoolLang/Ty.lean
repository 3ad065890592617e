import FoolLang.Ident
/-!
# Ty — the types, and what a declaration is known by

Beside the integers, the booleans, the references and `null`, functions, methods and classes have types too: those
stand only in entries.  A layout lists the members of a class, inherited ones included: the field at position `i`
lies `i + 1` cells below the object pointer, the method at position `j` has slot `j` of the dispatch table.
-/
namespace FoolLang

mutual

inductive Ty
  | int
  | bool
  | null
  | ref (cls : Ident)
  | function (sig : Signature)
  | method (sig : Signature)
  | cls (layout : Layout)

/-- Parameter types and return type. -/
structure Signature where
  params : List Ty
  ret : Ty

/-- The members of a class, inherited ones included. -/
structure Layout where
  fields : List Ty
  methods : List Signature

end

/-- Offsets are 32-bit integers, and one beyond that range wraps around. -/
def wrapOffset (n : Int) : Int := (Int32.ofInt n).toInt

/-- What a use of a name is resolved to: the level of its declaration, its type, and its offset from the frame, the
object or the dispatch pointer. -/
structure Entry where
  level : Nat
  ty : Ty
  offset : Int

namespace Layout

def empty : Layout := ⟨[], []⟩

end Layout

/-- Texts with a comma and a space between them. -/
def commaList : List (List Char) → List Char
  | [] => []
  | [t] => t
  | t :: ts => t ++ ", ".toList ++ commaList ts

mutual

/-- A type as it is shown. -/
def Ty.text : Ty → List Char
  | .int => "int".toList
  | .bool => "bool".toList
  | .null => "null".toList
  | .ref c => c.chars
  | .function s => s.text
  | .method s => "method ".toList ++ s.text
  | .cls l => l.text

def Signature.text : Signature → List Char
  | ⟨params, ret⟩ => "(".toList ++ commaList (texts params) ++ ") -> ".toList ++ ret.text

/-- A class type shows its fields only. -/
def Layout.text : Layout → List Char
  | ⟨fields, _⟩ => "class(".toList ++ commaList (texts fields) ++ ")".toList

def texts : List Ty → List (List Char)
  | [] => []
  | t :: ts => t.text :: texts ts

end

end FoolLang
