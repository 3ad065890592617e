import FoolLang.Hierarchy
import FoolLang.Tree
/-!
# Typing — the types of a resolved program

An expression has a type or one error, the first met from left to right.  A declaration has no type; each of them
contributes its own errors, and those of its local declarations before.  Where a use has no entry nothing can be said
of the whole expression: that is an error too, but a silent one, since the missing entry has its own message.
-/
namespace FoolLang

/-- What is known of the classes. -/
structure Classes where
  hierarchy : Hierarchy
  layouts : List (Ident × Layout)

/-- What an identifier stands for when it is no value. -/
inductive Role
  | function | method | cls
  deriving DecidableEq

/-- What arguments are given to. -/
inductive Application
  | invocation | instantiation
  deriving DecidableEq

inductive TypeError
  /-- A use without an entry. -/
  | incomplete
  | wrongValue (id : Ident) (line : Nat)
  | wrongReturn (role : Role) (id : Ident) (line : Nat)
  | notABoolean (line : Nat)
  | notACondition (line : Nat)
  | wrongBranches (line : Nat)
  | wrongUsage (role : Role) (id : Ident) (line : Nat)
  | notAFunction (id : Ident) (line : Nat)
  | wrongOperands (op : BinOp) (line : Nat)
  | wrongCount (a : Application) (id : Ident) (line : Nat)
  /-- The first argument is number 1. -/
  | wrongArgument (number : Nat) (a : Application) (id : Ident) (line : Nat)
  | wrongMethod (id : Ident) (line : Nat)
  | wrongField (id : Ident) (line : Nat)
  deriving DecidableEq

def Role.text : Role → String
  | function => "function" | method => "method" | cls => "class"

def Application.text : Application → String
  | invocation => "invocation" | instantiation => "instantiation"

namespace TypeError

/-- What is wrong with the operands of an operator. -/
def operands : BinOp → String
  | .plus => "Non integers in sum"
  | .minus => "Non integers in subtraction"
  | .times => "Non integers in multiplication"
  | .div => "Non integers in division"
  | .and => "Non boolean values in and"
  | .or => "Non boolean values in or"
  | op => "Incompatible types in " ++ String.ofList op.symbol

/-- The line of an error, if it has one. -/
def line : TypeError → Option Nat
  | incomplete => none
  | wrongValue _ l | wrongReturn _ _ l | notABoolean l | notACondition l | wrongBranches l | wrongUsage _ _ l
  | notAFunction _ l | wrongOperands _ l | wrongCount _ _ l | wrongArgument _ _ _ l | wrongMethod _ l
  | wrongField _ l => some l

/-- What is wrong, without the line. -/
def reason : TypeError → String
  | incomplete => "incomplete tree"
  | wrongValue id _ => s!"Incompatible value for variable {id}"
  | wrongReturn role id _ => "Wrong return type for " ++ role.text ++ s!" {id}"
  | notABoolean _ => "Non boolean after NOT"
  | notACondition _ => "Non boolean condition in if"
  | wrongBranches _ => "Incompatible types in then-else branches"
  | wrongUsage role id _ => "Wrong usage of " ++ role.text ++ s!" identifier {id}"
  | notAFunction id _ => s!"Invocation of a non-function {id}"
  | wrongOperands op _ => operands op
  | wrongCount a id _ => "Wrong number of parameters in the " ++ a.text ++ s!" of {id}"
  | wrongArgument number a id _ => s!"Wrong type for {number}-th parameter in the " ++ a.text ++ s!" of {id}"
  | wrongMethod id _ => s!"Wrong overriding type for method {id}"
  | wrongField id _ => s!"Wrong overriding type for field {id}"

def message (e : TypeError) : String :=
  match e.line with
  | some line => e.reason ++ s!" at line {line}"
  | none => e.reason

end TypeError

namespace Classes

/-- The type of `left op right`. -/
def binary (k : Classes) (op : BinOp) (left right : Ty) (line : Nat) : Except TypeError Ty :=
  let sub := k.hierarchy.isSubtype
  match op with
  | .plus | .minus | .times | .div =>
    if sub left .int && sub right .int then .ok .int else .error (.wrongOperands op line)
  | .and | .or =>
    if sub left .bool && sub right .bool then .ok .bool else .error (.wrongOperands op line)
  | .equal | .greaterEqual | .lessEqual =>
    if sub left right || sub right left then .ok .bool else .error (.wrongOperands op line)

end Classes

/-- The type of an identifier used as a value. -/
def Use.valueType (u : Use) (line : Nat) : Except TypeError Ty :=
  match u.entry with
  | none => .error .incomplete
  | some e =>
    match e.ty with
    | .function _ => .error (.wrongUsage .function u.id line)
    | .method _ => .error (.wrongUsage .method u.id line)
    | .cls _ => .error (.wrongUsage .cls u.id line)
    | ty => .ok ty

/-- The signature of an identifier that is called. -/
def Use.calleeSignature (u : Use) (line : Nat) : Except TypeError Signature :=
  match u.entry with
  | none => .error .incomplete
  | some e =>
    match e.ty with
    | .function s | .method s => .ok s
    | _ => .error (.notAFunction u.id line)

/-- The signature in the entry of a method. -/
def methodSignature (entry : Option Entry) : Except TypeError Signature :=
  match entry with
  | some ⟨_, .method s, _⟩ => .ok s
  | _ => .error .incomplete

/-- The fields of a class that is instantiated. -/
def Classes.fieldsOf (k : Classes) (c : Ident) (entry : Option Entry) : Except TypeError (List Ty) :=
  match entry, k.layouts.lookup c with
  | some _, some l => .ok l.fields
  | _, _ => .error .incomplete

mutual

/-- The type of an expression. -/
def Expr.type (k : Classes) : Expr → Except TypeError Ty
  | .int _ _ => .ok .int
  | .bool _ _ => .ok .bool
  | .null _ => .ok .null
  | .binary l op a b => do
    let left ← a.type k
    let right ← b.type k
    k.binary op left right l
  | .not l a => do
    let ty ← a.type k
    if k.hierarchy.isSubtype ty .bool then .ok .bool else .error (.notABoolean l)
  | .cond l c t e => do
    let test ← c.type k
    if k.hierarchy.isSubtype test .bool then
      let yes ← t.type k
      let no ← e.type k
      match k.hierarchy.leastCommon yes no with
      | some ty => .ok ty
      | none => .error (.wrongBranches l)
    else .error (.notACondition l)
  | .print _ a => a.type k
  | .id l u => u.valueType l
  | .call l u args => do
    let s ← u.calleeSignature l
    if args.length ≠ s.params.length then .error (.wrongCount .invocation u.id l)
    else do
      checkArgs k (fun n => .wrongArgument n .invocation u.id l) 1 args s.params
      return s.ret
  | .send l _ m entry args => do
    let s ← methodSignature entry
    if args.length ≠ s.params.length then .error (.wrongCount .invocation m l)
    else do
      checkArgs k (fun n => .wrongArgument n .invocation m l) 1 args s.params
      return s.ret
  | .new l c entry args => do
    let fields ← k.fieldsOf c entry
    if args.length ≠ fields.length then .error (.wrongCount .instantiation c l)
    else do
      checkArgs k (fun n => .wrongArgument n .instantiation c l) 1 args fields
      return .ref c

/-- Each argument, the first of them number `n`, must be below its parameter. -/
def checkArgs (k : Classes) (wrong : Nat → TypeError) (n : Nat) : List Expr → List Ty → Except TypeError Unit
  | e :: es, p :: ps => do
    let ty ← e.type k
    if k.hierarchy.isSubtype ty p then checkArgs k wrong (n + 1) es ps else .error (wrong n)
  | _, _ => .ok ()

end

/-- An expression must have a type below `ty`. -/
def Expr.checkBelow (k : Classes) (e : Expr) (ty : Ty) (wrong : TypeError) : Except TypeError Unit := do
  let own ← e.type k
  if k.hierarchy.isSubtype own ty then .ok () else .error wrong

/-- What a check reports: nothing if it passes or cannot be done. -/
def reported : Except TypeError Unit → List TypeError
  | .ok _ => []
  | .error .incomplete => []
  | .error e => [e]

mutual

def Dec.typeErrors (k : Classes) : Dec → List TypeError
  | .var l x ty v => reported (v.checkBelow k ty (.wrongValue x l))
  | .func l x ret _ locals body =>
    localTypeErrors k locals ++ reported (body.checkBelow k ret (.wrongReturn .function x l))

def localTypeErrors (k : Classes) : List Dec → List TypeError
  | [] => []
  | d :: ds => d.typeErrors k ++ localTypeErrors k ds

end

def Method.typeErrors (k : Classes) (m : Method) : List TypeError :=
  localTypeErrors k m.locals ++ reported (m.body.checkBelow k m.ret (.wrongReturn .method m.id m.line))

/-- Whether two positions of two lists are filled and do not compare. -/
def conflictAt {α : Type} (below : α → α → Bool) (own inherited : List α) (i : Nat) : Bool :=
  match own[i]?, inherited[i]? with
  | some a, some b => !below a b
  | _, _ => false

/-- The members of a class that do not fit those they override. -/
def Class.overrideErrors (k : Classes) (c : Class) : List TypeError :=
  match c.layout, c.superEntry with
  | some own, some ⟨_, .cls parent, _⟩ =>
    (c.fields.filter fun f =>
        decide (f.offset < 0) && conflictAt k.hierarchy.isSubtype own.fields parent.fields (-f.offset - 1).toNat).map
      (fun f => .wrongField f.id f.line)
    ++ (c.methods.filter fun m =>
        conflictAt k.hierarchy.isSubsignature own.methods parent.methods m.offset.toNat).map
      (fun m => .wrongMethod m.id m.line)
  | _, _ => []

def Class.typeErrors (k : Classes) (c : Class) : List TypeError :=
  c.methods.flatMap (Method.typeErrors k) ++ c.overrideErrors k

namespace Program

/-- The errors inside the declarations of a program. -/
def typeErrors (k : Classes) (p : Program) : List TypeError :=
  p.classes.flatMap (Class.typeErrors k) ++ localTypeErrors k p.decs

/-- The type of the main expression. -/
def type (k : Classes) (p : Program) : Except TypeError Ty := p.body.type k

end Program
end FoolLang
