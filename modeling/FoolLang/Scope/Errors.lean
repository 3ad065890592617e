import FoolLang.Scope.Members
import FoolLang.Scope.Resolve
/-!
# Errors — what is wrong with the names of a program

All of it is collected, in the order of the program: a value before the name it is given to, a callee before its
arguments, the members of a class before the bodies of its methods.  A refused method is not looked into.
-/
namespace FoolLang

/-- What a name is declared as. -/
inductive DeclKind
  | var | func | param | cls | field | method
  deriving DecidableEq

/-- What a name is used as. -/
inductive UseKind
  | value | callee | receiver | cls | super
  deriving DecidableEq

def DeclKind.text : DeclKind → String
  | var => "Var" | func => "Fun" | param => "Par" | cls => "Class" | field => "Field" | method => "Method"

def UseKind.text : UseKind → String
  | value => "Var or Par" | callee => "Fun" | receiver => "Object" | cls => "Class" | super => "Super class"

/-- What is wrong with a name, and on which line. -/
inductive NameError
  | alreadyDeclared (kind : DeclKind) (id : Ident) (line : Nat)
  | notDeclared (kind : UseKind) (id : Ident) (line : Nat)
  | notAnObject (id : Ident) (line : Nat)
  | methodNotDeclared (cls method : Ident) (line : Nat)
  | fieldOverridesMethod (id : Ident) (line : Nat)
  | methodOverridesField (id : Ident) (line : Nat)
  deriving DecidableEq

namespace NameError

def line : NameError → Nat
  | alreadyDeclared _ _ l | notDeclared _ _ l | notAnObject _ l | methodNotDeclared _ _ l
  | fieldOverridesMethod _ l | methodOverridesField _ l => l

def message : NameError → String
  | alreadyDeclared kind id line => kind.text ++ s!" id {id} at line {line} already declared"
  | notDeclared kind id line => kind.text ++ s!" id {id} at line {line} not declared"
  | notAnObject id line => s!"Object id {id} at line {line} is not an object"
  | methodNotDeclared cls method line => s!"Method id {method} at line {line} not declared in class {cls}"
  | fieldOverridesMethod id line => s!"Field id {id} at line {line} already declared as method"
  | methodOverridesField id line => s!"Method id {id} at line {line} already declared as field"

end NameError

namespace Env

/-- A type must name a class of the program. -/
def typeNameErrors (env : Env) (ty : Ty) (line : Nat) : List NameError :=
  match ty with
  | .ref c => if c ∈ env.classNames then [] else [.notDeclared .cls c line]
  | _ => []

/-- A name must be new to the innermost scope. -/
def declareErrors (env : Env) (kind : DeclKind) (x : Ident) (line : Nat) : List NameError :=
  if env.declaredHere x then [.alreadyDeclared kind x line] else []

/-- A name that is used must be declared. -/
def useErrors (env : Env) (kind : UseKind) (x : Ident) (line : Nat) : List NameError :=
  if (env.lookup x).isSome then [] else [.notDeclared kind x line]

def sendErrors (env : Env) (object method : Ident) (line : Nat) : List NameError :=
  match env.sendTarget object method with
  | .ok _ => []
  | .error .noReceiver => [.notDeclared .receiver object line]
  | .error .notAnObject => [.notAnObject object line]
  | .error (.noMethod c) => [.methodNotDeclared c method line]

def newErrors (env : Env) (c : Ident) (line : Nat) : List NameError :=
  if (env.tables.lookup c).isSome then [] else [.notDeclared .cls c line]

/-- The errors of parameters, the first of them at `offset`. -/
def paramErrors (offset : Int) (env : Env) : List Param → List NameError
  | [] => []
  | p :: ps =>
    env.typeNameErrors p.ty p.line ++ env.declareErrors .param p.id p.line
      ++ paramErrors (wrapOffset (offset + 1)) (env.insert p.id ⟨env.level, p.ty, offset⟩) ps

end Env

mutual

def Expr.nameErrors (env : Env) : Expr → List NameError
  | .int _ _ | .bool _ _ | .null _ => []
  | .binary _ _ a b => a.nameErrors env ++ b.nameErrors env
  | .not _ a | .print _ a => a.nameErrors env
  | .cond _ c t e => c.nameErrors env ++ t.nameErrors env ++ e.nameErrors env
  | .id l u => env.useErrors .value u.id l
  | .call l u args => env.useErrors .callee u.id l ++ argNameErrors env args
  | .send l u m _ args => env.sendErrors u.id m l ++ argNameErrors env args
  | .new l c _ args => env.newErrors c l ++ argNameErrors env args

def argNameErrors (env : Env) : List Expr → List NameError
  | [] => []
  | e :: es => e.nameErrors env ++ argNameErrors env es

end

mutual

def Dec.nameErrors (env : Env) : Dec → List NameError
  | .var l x ty v => v.nameErrors env ++ env.typeNameErrors ty l ++ env.declareErrors .var x l
  | .func l x ret params locals body =>
    let declared := env.declare x (.function (signatureOf params ret))
    let inner := declared.inRoutine params
    env.typeNameErrors ret l ++ env.declareErrors .func x l ++ declared.enter.paramErrors 1 params
      ++ localNameErrors inner locals ++ body.nameErrors (inner.afterAll locals)

def localNameErrors (env : Env) : List Dec → List NameError
  | [] => []
  | d :: ds => d.nameErrors env ++ localNameErrors (env.after d) ds

end

/-- The errors inside a method. -/
def Method.nameErrors (env : Env) (m : Method) : List NameError :=
  let inner := env.inRoutine m.params
  env.enter.paramErrors 1 m.params ++ localNameErrors inner m.locals ++ m.body.nameErrors (inner.afterAll m.locals)

/-- Why a field is refused. -/
def Members.fieldErrors (s : Members) (f : Field) : List NameError :=
  match s.fieldSlot f.id with
  | .ok _ => []
  | .error .repeated => [.alreadyDeclared .field f.id f.line]
  | .error .clashes => [.fieldOverridesMethod f.id f.line]

/-- Why a method is refused. -/
def Members.methodErrors (s : Members) (m : Method) : List NameError :=
  match s.methodSlot m.id with
  | .ok _ => []
  | .error .repeated => [.alreadyDeclared .method m.id m.line]
  | .error .clashes => [.methodOverridesField m.id m.line]

def fieldsErrors (env : Env) (s : Members) : List Field → List NameError
  | [] => []
  | f :: fs => env.typeNameErrors f.ty f.line ++ s.fieldErrors f ++ fieldsErrors env (s.addField (env.level + 1) f) fs

def methodsErrors (env : Env) (s : Members) : List Method → List NameError
  | [] => []
  | m :: ms =>
    env.typeNameErrors m.ret m.line ++ s.methodErrors m ++ methodsErrors env (s.addMethod (env.level + 1) m) ms

/-- The errors inside the methods that are not refused. -/
def bodiesErrors (inner : Env) (level : Nat) (s : Members) : List Method → List NameError
  | [] => []
  | m :: ms =>
    (match s.methodSlot m.id with
      | .ok _ => m.nameErrors inner
      | .error _ => []) ++ bodiesErrors inner level (s.addMethod level m) ms

/-- A superclass must be declared already. -/
def Class.superErrors (env : Env) (c : Class) : List NameError :=
  match c.super with
  | none => []
  | some s => if (env.tables.lookup s).isSome then [] else [.notDeclared .super s c.line]

def Class.nameErrors (env : Env) (c : Class) : List NameError :=
  c.superErrors env
    ++ (if env.redeclared c then [.alreadyDeclared .cls c.id c.line] else [])
    ++ fieldsErrors env (env.inherited c) c.fields
    ++ methodsErrors env (env.withFields c) c.methods
    ++ bodiesErrors (env.inClass c) (env.level + 1) (env.withFields c) c.methods

def classesNameErrors (env : Env) : List Class → List NameError
  | [] => []
  | c :: cs => c.nameErrors env ++ classesNameErrors (env.afterClass c) cs

/-- Everything that is wrong with the names of a program. -/
def Program.nameErrors (p : Program) : List NameError :=
  classesNameErrors p.initialEnv p.classes ++ localNameErrors p.classEnv p.decs ++ p.body.nameErrors p.mainEnv

end FoolLang
