import FoolLang.Proofs.Nodes
import FoolLang.Scope.Errors
/-!
# Visits — the steps of the pass that resolves names

One pass over a program declares its names and resolves their uses.  Its steps are listed here in order, each with what
is visible when it is taken: an expression is looked at before its parts, the value of a variable before the variable
is declared, a class and its members before the bodies of its methods; a refused method is not looked into.  What is
wrong with the names of a program is what is wrong at its steps (`Program.nameErrors_eq_visits`).
-/
namespace FoolLang

inductive Visit
  /-- An expression, whose own names are looked up. -/
  | node (env : Env) (e : Expr)
  /-- A variable or function, which takes the next offset. -/
  | dec (env : Env) (d : Dec)
  /-- A parameter, which takes `offset`. -/
  | param (env : Env) (offset : Int) (p : Param)
  /-- A class, which takes the next offset and starts from the members of its superclass. -/
  | cls (env : Env) (c : Class)
  /-- A field, after the members `s`. -/
  | field (env : Env) (s : Members) (f : Field)
  /-- A method, after the members `s`. -/
  | method (env : Env) (s : Members) (m : Method)

/-- What is wrong with the names of an expression, its parts left out. -/
def Expr.ownNameErrors (env : Env) : Expr → List NameError
  | .id l u => env.useErrors .value u.id l
  | .call l u _ => env.useErrors .callee u.id l
  | .send l u m _ _ => env.sendErrors u.id m l
  | .new l c _ _ => env.newErrors c l
  | _ => []

def Dec.ownNameErrors (env : Env) : Dec → List NameError
  | .var l x ty _ => env.typeNameErrors ty l ++ env.declareErrors .var x l
  | .func l x ret _ _ _ => env.typeNameErrors ret l ++ env.declareErrors .func x l

namespace Visit

/-- What is visible at a step. -/
def env : Visit → Env
  | node env _ | dec env _ | param env _ _ | cls env _ | field env _ _ | method env _ _ => env

/-- What is wrong at a step. -/
def errors : Visit → List NameError
  | node env e => e.ownNameErrors env
  | dec env d => d.ownNameErrors env
  | param env _ p => env.typeNameErrors p.ty p.line ++ env.declareErrors .param p.id p.line
  | cls env c => c.superErrors env ++ if env.redeclared c then [.alreadyDeclared .cls c.id c.line] else []
  | field env s f => env.typeNameErrors f.ty f.line ++ s.fieldErrors f
  | method env s m => env.typeNameErrors m.ret m.line ++ s.methodErrors m

end Visit

/-! ## The steps of a program -/

def Expr.visits (env : Env) (e : Expr) : List Visit := e.nodes.map (.node env)

/-- The steps over parameters, the first of them at `offset`. -/
def paramVisits (offset : Int) (env : Env) : List Param → List Visit
  | [] => []
  | p :: ps =>
    .param env offset p :: paramVisits (wrapOffset (offset + 1)) (env.insert p.id ⟨env.level, p.ty, offset⟩) ps

mutual

def Dec.visits (env : Env) : Dec → List Visit
  | .var l x ty v => v.visits env ++ [.dec env (.var l x ty v)]
  | .func l x ret params locals body =>
    let declared := env.declare x (.function (signatureOf params ret))
    let inner := declared.inRoutine params
    .dec env (.func l x ret params locals body) :: (paramVisits 1 declared.enter params ++ localVisits inner locals ++
      body.visits (inner.afterAll locals))

def localVisits (env : Env) : List Dec → List Visit
  | [] => []
  | d :: ds => d.visits env ++ localVisits (env.after d) ds

end

/-- The steps inside a method. -/
def Method.visits (env : Env) (m : Method) : List Visit :=
  let inner := env.inRoutine m.params
  paramVisits 1 env.enter m.params ++ localVisits inner m.locals ++ m.body.visits (inner.afterAll m.locals)

def fieldVisits (env : Env) (s : Members) : List Field → List Visit
  | [] => []
  | f :: fs => .field env s f :: fieldVisits env (s.addField (env.level + 1) f) fs

def methodVisits (env : Env) (s : Members) : List Method → List Visit
  | [] => []
  | m :: ms => .method env s m :: methodVisits env (s.addMethod (env.level + 1) m) ms

/-- The steps inside the methods that are not refused. -/
def bodyVisits (inner : Env) (level : Nat) (s : Members) : List Method → List Visit
  | [] => []
  | m :: ms =>
    (match s.methodSlot m.id with
      | .ok _ => m.visits inner
      | .error _ => []) ++ bodyVisits inner level (s.addMethod level m) ms

def Class.visits (env : Env) (c : Class) : List Visit :=
  .cls env c :: (fieldVisits env (env.inherited c) c.fields ++ methodVisits env (env.withFields c) c.methods ++
    bodyVisits (env.inClass c) (env.level + 1) (env.withFields c) c.methods)

def classVisits (env : Env) : List Class → List Visit
  | [] => []
  | c :: cs => c.visits env ++ classVisits (env.afterClass c) cs

/-- The steps of the pass over a program. -/
def Program.visits (p : Program) : List Visit :=
  classVisits p.initialEnv p.classes ++ localVisits p.classEnv p.decs ++ p.body.visits p.mainEnv

/-! ## What is wrong at the steps -/

mutual

theorem Expr.nameErrors_eq_nodes (env : Env) : ∀ e : Expr, e.nameErrors env = e.nodes.flatMap (Expr.ownNameErrors env)
  | .int _ _ | .bool _ _ | .null _ => rfl
  | .id _ _ => by simp [Expr.nameErrors, Expr.nodes, Expr.ownNameErrors]
  | .binary l op a b => by
    simp [Expr.nameErrors, Expr.nodes, Expr.ownNameErrors, Expr.nameErrors_eq_nodes env a,
      Expr.nameErrors_eq_nodes env b]
  | .not l a | .print l a => by
    simp [Expr.nameErrors, Expr.nodes, Expr.ownNameErrors, Expr.nameErrors_eq_nodes env a]
  | .cond l c t e => by
    simp [Expr.nameErrors, Expr.nodes, Expr.ownNameErrors, Expr.nameErrors_eq_nodes env c,
      Expr.nameErrors_eq_nodes env t, Expr.nameErrors_eq_nodes env e]
  | .call l u args => by
    simp [Expr.nameErrors, Expr.nodes, Expr.ownNameErrors, argNameErrors_eq_nodes env args]
  | .send l u m entry args => by
    simp [Expr.nameErrors, Expr.nodes, Expr.ownNameErrors, argNameErrors_eq_nodes env args]
  | .new l c entry args => by
    simp [Expr.nameErrors, Expr.nodes, Expr.ownNameErrors, argNameErrors_eq_nodes env args]

theorem argNameErrors_eq_nodes (env : Env) : ∀ es : List Expr,
    argNameErrors env es = (argNodes es).flatMap (Expr.ownNameErrors env)
  | [] => rfl
  | e :: es => by
    rw [argNameErrors, argNodes, List.flatMap_append, Expr.nameErrors_eq_nodes env e, argNameErrors_eq_nodes env es]

end

theorem Expr.nameErrors_eq_visits (env : Env) (e : Expr) : e.nameErrors env = (e.visits env).flatMap Visit.errors := by
  rw [e.nameErrors_eq_nodes env, Expr.visits, List.flatMap_map]
  rfl

theorem paramErrors_eq_visits : ∀ (ps : List Param) (offset : Int) (env : Env),
    env.paramErrors offset ps = (paramVisits offset env ps).flatMap Visit.errors
  | [], _, _ => rfl
  | p :: ps, offset, env => by
    rw [Env.paramErrors, paramVisits, List.flatMap_cons, paramErrors_eq_visits ps]
    rfl

mutual

theorem Dec.nameErrors_eq_visits : ∀ (d : Dec) (env : Env), d.nameErrors env = (d.visits env).flatMap Visit.errors
  | .var l x ty v, env => by
    rw [Dec.nameErrors, Dec.visits, List.flatMap_append, v.nameErrors_eq_visits env, List.append_assoc,
      List.flatMap_singleton]
    rfl
  | .func l x ret params locals body, env => by
    simp only [Dec.nameErrors, Dec.visits, List.flatMap_cons, List.flatMap_append, paramErrors_eq_visits,
      localNameErrors_eq_visits _ locals, Expr.nameErrors_eq_visits, Visit.errors, Dec.ownNameErrors, List.append_assoc]

theorem localNameErrors_eq_visits : ∀ (env : Env) (ds : List Dec),
    localNameErrors env ds = (localVisits env ds).flatMap Visit.errors
  | _, [] => rfl
  | env, d :: ds => by
    rw [localNameErrors, localVisits, List.flatMap_append, d.nameErrors_eq_visits env,
      localNameErrors_eq_visits (env.after d) ds]

end

theorem Method.nameErrors_eq_visits (env : Env) (m : Method) :
    m.nameErrors env = (m.visits env).flatMap Visit.errors := by
  simp only [Method.nameErrors, Method.visits, List.flatMap_append, paramErrors_eq_visits, localNameErrors_eq_visits,
    Expr.nameErrors_eq_visits]

theorem fieldsErrors_eq_visits (env : Env) : ∀ (fs : List Field) (s : Members),
    fieldsErrors env s fs = (fieldVisits env s fs).flatMap Visit.errors
  | [], _ => rfl
  | f :: fs, s => by
    rw [fieldsErrors, fieldVisits, List.flatMap_cons, fieldsErrors_eq_visits env fs]
    rfl

theorem methodsErrors_eq_visits (env : Env) : ∀ (ms : List Method) (s : Members),
    methodsErrors env s ms = (methodVisits env s ms).flatMap Visit.errors
  | [], _ => rfl
  | m :: ms, s => by
    rw [methodsErrors, methodVisits, List.flatMap_cons, methodsErrors_eq_visits env ms]
    rfl

theorem bodiesErrors_eq_visits (inner : Env) (level : Nat) : ∀ (ms : List Method) (s : Members),
    bodiesErrors inner level s ms = (bodyVisits inner level s ms).flatMap Visit.errors
  | [], _ => rfl
  | m :: ms, s => by
    rw [bodiesErrors, bodyVisits, List.flatMap_append, bodiesErrors_eq_visits inner level ms]
    cases s.methodSlot m.id with
    | ok off => rw [m.nameErrors_eq_visits inner]
    | error r => rfl

theorem Class.nameErrors_eq_visits (env : Env) (c : Class) :
    c.nameErrors env = (c.visits env).flatMap Visit.errors := by
  simp only [Class.nameErrors, Class.visits, List.flatMap_cons, List.flatMap_append, fieldsErrors_eq_visits,
    methodsErrors_eq_visits, bodiesErrors_eq_visits, Visit.errors, List.append_assoc]

theorem classesNameErrors_eq_visits : ∀ (cs : List Class) (env : Env),
    classesNameErrors env cs = (classVisits env cs).flatMap Visit.errors
  | [], _ => rfl
  | c :: cs, env => by
    rw [classesNameErrors, classVisits, List.flatMap_append, c.nameErrors_eq_visits env,
      classesNameErrors_eq_visits cs]

/-- **What is wrong with the names of a program is what is wrong at its steps**, in their order. -/
theorem Program.nameErrors_eq_visits (p : Program) : p.nameErrors = p.visits.flatMap Visit.errors := by
  rw [Program.nameErrors, Program.visits, List.flatMap_append, List.flatMap_append, classesNameErrors_eq_visits,
    localNameErrors_eq_visits, Expr.nameErrors_eq_visits]

end FoolLang
