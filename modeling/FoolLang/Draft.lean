import FoolLang.Tree
/-!
# Draft — a program read so far

Reading goes token by token.  What has been read is kept as the constructs that are still open, innermost first:
inside an expression the frames around the point reached, around it the declaration the expression belongs to, and
around that the lists of declarations being collected.  Lists under collection are kept newest first.
-/
namespace FoolLang

/-- A typed name, `id : T`, with the line of the declaration it heads. -/
structure Binding where
  line : Nat
  id : Ident
  ty : Ty

/-- The head of a function or method, up to its parameters. -/
structure RoutineHead where
  name : Binding
  params : List Binding

/-- The head of a class, after the classes before it. -/
structure ClassHead where
  earlier : List Class
  line : Nat
  id : Ident
  super : Option Ident

/-- A class whose methods are being collected. -/
structure ClassDraft where
  head : ClassHead
  fields : List Binding
  methods : List Method

mutual

/-- Where variables and functions are being collected. -/
inductive Block
  | main (classes : List Class) (decs : List Dec)
  | locals (head : RoutineHead) (decs : List Dec) (owner : Owner)

/-- Where a routine goes once it is complete. -/
inductive Owner
  | block (b : Block)
  | cls (c : ClassDraft)

end

/-- What a typed name is being read for. -/
inductive Purpose
  | var (line : Nat) (block : Block)
  | routine (line : Nat) (owner : Owner)
  | field (head : ClassHead) (done : List Binding)
  | param (name : Binding) (done : List Binding) (owner : Owner)

/-- What an expression at the outermost level is part of; a semicolon ends it. -/
inductive Site
  | program
  | main (classes : List Class) (decs : List Dec)
  | var (name : Binding) (block : Block)
  | body (head : RoutineHead) (locals : List Dec) (owner : Owner)

/-- What arguments are given to. -/
inductive Head
  | call (callee : Ident)
  | send (object method : Ident)
  | new (cls : Ident)

/-- A construct that waits for the expression being read. -/
inductive Frame
  | binary (line : Nat) (op : BinOp) (left : Expr)
  | not (line : Nat)
  | group
  | print (line : Nat)
  | test (line : Nat)
  | yes (line : Nat) (test : Expr)
  | no (line : Nat) (test yes : Expr)
  | args (line : Nat) (head : Head) (done : List Expr)

/-- The point reached inside an expression. -/
inductive Focus
  /-- An operand must follow. -/
  | operand
  /-- An operand is complete. -/
  | value (e : Expr)
  /-- A name was read: an operand, or the start of a call. -/
  | name (line : Nat) (id : Ident)
  /-- After `-` before an operand. -/
  | negative (line : Nat)
  /-- After `print`. -/
  | printOpen (line : Nat)
  /-- After the name of what is called, before the arguments. -/
  | argsOpen (line : Nat) (head : Head)
  /-- After `new`. -/
  | newName (line : Nat)
  /-- After the dot that follows an object. -/
  | methodName (line : Nat) (object : Ident)
  /-- After `then`. -/
  | yesOpen (line : Nat) (test : Expr)
  /-- After the first branch. -/
  | elseWord (line : Nat) (test yes : Expr)
  /-- After `else`. -/
  | noOpen (line : Nat) (test yes : Expr)

/-- The point reached in a typed name. -/
inductive BindFocus
  | name
  | colon (line : Nat) (id : Ident)
  | ty (line : Nat) (id : Ident)
  | done (b : Binding)

inductive Draft
  | start
  | expr (focus : Focus) (frames : List Frame) (site : Site)
  /-- Between declarations. -/
  | block (b : Block)
  /-- Between methods. -/
  | methods (c : ClassDraft)
  | bind (focus : BindFocus) (purpose : Purpose)
  /-- After `class`. -/
  | className (earlier : List Class) (line : Nat)
  /-- After the name of a class. -/
  | classHead (head : ClassHead)
  /-- After `extends`. -/
  | superName (head : ClassHead)
  /-- After the name of the superclass. -/
  | superDone (head : ClassHead)
  /-- After the fields. -/
  | classOpen (head : ClassHead) (fields : List Binding)
  /-- After the parameters. -/
  | routineOpen (head : RoutineHead) (owner : Owner)
  | finished (p : Program)

namespace Binding

def param (b : Binding) : Param := ⟨b.line, b.id, b.ty⟩

def field (b : Binding) : Field := ⟨b.line, b.id, b.ty, 0⟩

end Binding

/-- A class whose last method has been read. -/
def ClassDraft.close (c : ClassDraft) : Class :=
  ⟨c.head.line, c.head.id, c.head.super, c.fields.map Binding.field, c.methods.reverse, none, none⟩

/-- A block with one more declaration. -/
def Block.add (d : Dec) : Block → Block
  | .main cs ds => .main cs (d :: ds)
  | .locals h ds o => .locals h (d :: ds) o

/-- A completed routine, handed to its owner. -/
def Owner.add (head : RoutineHead) (locals : List Dec) (body : Expr) : Owner → Draft
  | .block b =>
    .block (b.add (.func head.name.line head.name.id head.name.ty (head.params.map Binding.param) locals body))
  | .cls c =>
    .methods { c with
      methods := ⟨head.name.line, head.name.id, head.name.ty, head.params.map Binding.param, locals, body, 0⟩
        :: c.methods }

/-- A completed call. -/
def Head.apply (line : Nat) (args : List Expr) : Head → Expr
  | .call f => .call line (.fresh f) args
  | .send o m => .send line (.fresh o) m none args
  | .new c => .new line c none args

/-- The program or declaration that an expression completes. -/
def Site.close (e : Expr) : Site → Draft
  | .program => .finished (.expr e)
  | .main cs ds => .finished (.letIn cs.reverse ds.reverse e)
  | .var b blk => .block (blk.add (.var b.line b.id b.ty e))
  | .body head locals owner => owner.add head locals.reverse e

end FoolLang
