import FoolLang.Scope.Members
/-!
# Resolve — every use given its entry

A use that is declared gets the entry of the innermost declaration visible and the level it stands at; one that is
not stays without an entry.  A declaration is visible after itself, a function also inside itself, and the members of
a class in all of its methods.
-/
namespace FoolLang

/-- A use of a name at a point of a program. -/
def Env.use (env : Env) (x : Ident) : Use :=
  match env.lookup x with
  | some e => ⟨x, env.level, some e⟩
  | none => .fresh x

mutual

def Expr.resolve (env : Env) : Expr → Expr
  | .int l n => .int l n
  | .bool l b => .bool l b
  | .null l => .null l
  | .binary l op a b => .binary l op (a.resolve env) (b.resolve env)
  | .not l a => .not l (a.resolve env)
  | .cond l c t e => .cond l (c.resolve env) (t.resolve env) (e.resolve env)
  | .print l a => .print l (a.resolve env)
  | .id l u => .id l (env.use u.id)
  | .call l u args => .call l (env.use u.id) (resolveArgs env args)
  | .send l u m _ args =>
    match env.sendTarget u.id m with
    | .ok (object, method) => .send l ⟨u.id, env.level, some object⟩ m (some method) (resolveArgs env args)
    | .error _ => .send l (.fresh u.id) m none (resolveArgs env args)
  | .new l c _ args => .new l c (env.instantiable c) (resolveArgs env args)

def resolveArgs (env : Env) : List Expr → List Expr
  | [] => []
  | e :: es => e.resolve env :: resolveArgs env es

end

mutual

def Dec.resolve (env : Env) : Dec → Dec
  | .var l x ty v => .var l x ty (v.resolve env)
  | .func l x ret params locals body =>
    let inner := (env.declare x (.function (signatureOf params ret))).inRoutine params
    .func l x ret params (resolveLocals inner locals) (body.resolve (inner.afterAll locals))

def resolveLocals (env : Env) : List Dec → List Dec
  | [] => []
  | d :: ds => d.resolve env :: resolveLocals (env.after d) ds

end

/-- A method with the uses in it resolved. -/
def Method.resolve (env : Env) (m : Method) : Method :=
  let inner := env.inRoutine m.params
  { m with locals := resolveLocals inner m.locals, body := m.body.resolve (inner.afterAll m.locals) }

/-- Gives fields their offsets; a refused one keeps its own. -/
def resolveFields (level : Nat) (s : Members) : List Field → List Field
  | [] => []
  | f :: fs =>
    { f with offset := (s.fieldSlot f.id).toOption.getD f.offset } :: resolveFields level (s.addField level f) fs

/-- Gives methods their offsets and resolves them; a refused one stays as it is. -/
def resolveMethods (env : Env) (level : Nat) (s : Members) : List Method → List Method
  | [] => []
  | m :: ms =>
    (match s.methodSlot m.id with
      | .ok offset => { m.resolve env with offset := offset }
      | .error _ => m) :: resolveMethods env level (s.addMethod level m) ms

def Class.resolve (env : Env) (c : Class) : Class :=
  { c with
    fields := resolveFields (env.level + 1) (env.inherited c) c.fields
    methods := resolveMethods (env.inClass c) (env.level + 1) (env.withFields c) c.methods
    layout := some (env.members c).layout
    superEntry := env.superEntry c }

def resolveClasses (env : Env) : List Class → List Class
  | [] => []
  | c :: cs => c.resolve env :: resolveClasses (env.afterClass c) cs

namespace Program

/-- What is visible at the start of a program. -/
def initialEnv (p : Program) : Env := .initial (p.classes.map Class.id)

/-- What is visible after the classes. -/
def classEnv (p : Program) : Env := p.classes.foldl Env.afterClass p.initialEnv

/-- What is visible to the main expression. -/
def mainEnv (p : Program) : Env := p.classEnv.afterAll p.decs

/-- A program with every declared use resolved. -/
def resolve (p : Program) : Program :=
  match p with
  | .letIn cs ds body => .letIn (resolveClasses p.initialEnv cs) (resolveLocals p.classEnv ds) (body.resolve p.mainEnv)
  | .expr body => .expr (body.resolve p.mainEnv)

end Program
end FoolLang
