import FoolLang.Ty
/-!
# Tree — programs

A program is an expression, alone or after declarations; the classes come before the variables and functions.
Every node knows the line it starts on, a binary one the line of its operator.  The same tree serves before and
after names are resolved: a use holds the entry it was resolved to, if there is one yet, and the level it stands at.
-/
namespace FoolLang

inductive BinOp
  | plus | minus | times | div | equal | greaterEqual | lessEqual | and | or
  deriving DecidableEq

def BinOp.symbol : BinOp → List Char
  | .plus => "+".toList | .minus => "-".toList | .times => "*".toList | .div => "/".toList
  | .equal => "==".toList | .greaterEqual => ">=".toList | .lessEqual => "<=".toList
  | .and => "&&".toList | .or => "||".toList

/-- A use of a name. -/
structure Use where
  id : Ident
  level : Nat
  entry : Option Entry

/-- A use that is not resolved. -/
def Use.fresh (id : Ident) : Use := ⟨id, 0, none⟩

inductive Expr
  | int (line : Nat) (n : Int32)
  | bool (line : Nat) (b : Bool)
  | null (line : Nat)
  | binary (line : Nat) (op : BinOp) (left right : Expr)
  | not (line : Nat) (arg : Expr)
  | cond (line : Nat) (test yes no : Expr)
  | print (line : Nat) (arg : Expr)
  | id (line : Nat) (use : Use)
  | call (line : Nat) (callee : Use) (args : List Expr)
  /-- A method called on a named object, with the entry of the method. -/
  | send (line : Nat) (object : Use) (method : Ident) (entry : Option Entry) (args : List Expr)
  | new (line : Nat) (cls : Ident) (entry : Option Entry) (args : List Expr)

structure Param where
  line : Nat
  id : Ident
  ty : Ty

inductive Dec
  | var (line : Nat) (id : Ident) (ty : Ty) (value : Expr)
  | func (line : Nat) (id : Ident) (ret : Ty) (params : List Param) (locals : List Dec) (body : Expr)

structure Field where
  line : Nat
  id : Ident
  ty : Ty
  offset : Int

structure Method where
  line : Nat
  id : Ident
  ret : Ty
  params : List Param
  locals : List Dec
  body : Expr
  offset : Int

/-- A class; its layout and the entry of its superclass are known once names are resolved. -/
structure Class where
  line : Nat
  id : Ident
  super : Option Ident
  fields : List Field
  methods : List Method
  layout : Option Layout
  superEntry : Option Entry

inductive Program
  | letIn (classes : List Class) (decs : List Dec) (body : Expr)
  | expr (body : Expr)

namespace Expr

def line : Expr → Nat
  | .int l _ | .bool l _ | .null l | .binary l _ _ _ | .not l _ | .cond l _ _ _ | .print l _ | .id l _
  | .call l _ _ | .send l _ _ _ _ | .new l _ _ _ => l

end Expr

/-- The signature of a routine. -/
def signatureOf (params : List Param) (ret : Ty) : Signature := ⟨params.map Param.ty, ret⟩

def Method.signature (m : Method) : Signature := signatureOf m.params m.ret

namespace Program

def body : Program → Expr
  | .letIn _ _ b | .expr b => b

def classes : Program → List Class
  | .letIn cs _ _ => cs
  | .expr _ => []

def decs : Program → List Dec
  | .letIn _ ds _ => ds
  | .expr _ => []

end Program

end FoolLang
