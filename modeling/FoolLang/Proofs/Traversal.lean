import FoolLang.Proofs.Uses
/-!
# Traversal — names resolved in one traversal

The names of a program can be resolved by a traversal that changes one state: a routine pushes a scope and pops it
again, a class does so with the table of its members, a declaration counts the next offset down, and errors are
appended to those before.  The traversal comes to the tree, to the errors and to what is visible in the end that the
definitions of `Scope` describe without a state (`Program.traversal_eq`).

On the way it keeps a list of what happens: a name looked up or declared, with what is visible at that point, and a part
of the program visited, with what is visible before and after.
-/
namespace FoolLang

/-- Where a name is declared. -/
inductive DeclPlace
  /-- After `k` other declarations of its routine, or of the program. -/
  | dec (k : Nat)
  /-- As the `i`-th parameter, counted from 1. -/
  | param (i : Nat)
  /-- In the table of a class. -/
  | member
  deriving DecidableEq

/-- A part of a program that is visited. -/
inductive Part
  | expr | var | func | cls | method
  deriving DecidableEq

/-- How many offsets a part takes. -/
def Part.offsets : Part → Nat
  | expr | method => 0
  | var | func | cls => 1

/-- Something that happens in a traversal, with what is visible at that point. -/
inductive Event
  | lookup (env : Env) (x : Ident)
  | declare (env : Env) (place : DeclPlace) (x : Ident) (e : Entry)
  | visit (part : Part) (before after : Env)

/-- The state of a traversal. -/
structure Traversal where
  env : Env
  errors : List NameError
  events : List Event

abbrev Traverse := StateM Traversal

namespace Traverse

def visible : Traverse Env := return (← get).env

def change (f : Env → Env) : Traverse Unit := modify fun s => { s with env := f s.env }

def report (es : List NameError) : Traverse Unit := modify fun s => { s with errors := s.errors ++ es }

def note (event : Env → Event) : Traverse Unit := modify fun s => { s with events := s.events ++ [event s.env] }

/-- Looks a name up in what is visible. -/
def lookUp (x : Ident) : Traverse Env := do
  note (.lookup · x)
  visible

def takeOffset : Traverse Int := do
  let env ← visible
  change fun env => { env with next := wrapOffset (env.next - 1) }
  return env.next

/-- Enters a name into the innermost scope, where it should be new. -/
def declare (place : DeclPlace) (kind : DeclKind) (x : Ident) (e : Entry) (line : Nat) : Traverse Unit := do
  note (.declare · place x e)
  report ((← visible).declareErrors kind x line)
  change (Env.insert · x e)

/-- Declares a variable or function after `k` others. -/
def declareNext (k : Nat) (kind : DeclKind) (x : Ident) (ty : Ty) (line : Nat) : Traverse Unit := do
  let env ← visible
  let offset ← takeOffset
  declare (.dec k) kind x ⟨env.level, ty, offset⟩ line

/-- Opens the scope of a routine, and gives the offset that is next once it is closed. -/
def enterRoutine : Traverse Int := do
  let env ← visible
  change Env.enter
  return env.next

def leaveRoutine (next : Int) : Traverse Unit :=
  change fun env => { env with scopes := env.scopes.tail, level := env.level - 1, next := next }

/-- Opens the scope of the members of a class. -/
def enterMembers (level : Nat) (table : Scope) : Traverse Unit :=
  change fun env => { env with scopes := table :: env.scopes, level := level }

def leaveMembers (level : Nat) : Traverse Unit :=
  change fun env => { env with scopes := env.scopes.tail, level := level - 1 }

/-- Visits a part of the program. -/
def visit {α : Type} (part : Part) (w : Traverse α) : Traverse α := do
  let before ← visible
  let a ← w
  note (.visit part before ·)
  return a

end Traverse

open Traverse

/-! ## The traversal -/

mutual

def Expr.traverse : Expr → Traverse Expr
  | .int l n => visit .expr <| return .int l n
  | .bool l b => visit .expr <| return .bool l b
  | .null l => visit .expr <| return .null l
  | .binary l op a b => visit .expr <| return .binary l op (← a.traverse) (← b.traverse)
  | .not l a => visit .expr <| return .not l (← a.traverse)
  | .cond l c t e => visit .expr <| return .cond l (← c.traverse) (← t.traverse) (← e.traverse)
  | .print l a => visit .expr <| return .print l (← a.traverse)
  | .id l u => visit .expr do
    let env ← lookUp u.id
    report (env.useErrors .value u.id l)
    return .id l (env.use u.id)
  | .call l u args => visit .expr do
    let env ← lookUp u.id
    report (env.useErrors .callee u.id l)
    return .call l (env.use u.id) (← traverseArgs args)
  | .send l u m _ args => visit .expr do
    let env ← lookUp u.id
    report (env.sendErrors u.id m l)
    let args ← traverseArgs args
    match env.sendTarget u.id m with
    | .ok (object, method) => return .send l ⟨u.id, env.level, some object⟩ m (some method) args
    | .error _ => return .send l (.fresh u.id) m none args
  | .new l c _ args => visit .expr do
    let env ← lookUp c
    report (env.newErrors c l)
    return .new l c (env.instantiable c) (← traverseArgs args)

def traverseArgs : List Expr → Traverse (List Expr)
  | [] => return []
  | e :: es => return (← e.traverse) :: (← traverseArgs es)

end

/-- Declares parameters, the first of them as the `i`-th one, at `offset`. -/
def traverseParams (i : Nat) (offset : Int) : List Param → Traverse Unit
  | [] => return
  | p :: ps => do
    let env ← visible
    report (env.typeNameErrors p.ty p.line)
    declare (.param i) .param p.id ⟨env.level, p.ty, offset⟩ p.line
    traverseParams (i + 1) (wrapOffset (offset + 1)) ps

/-- Traverses a routine, whose local declarations are traversed by `locals`. -/
def traverseRoutine (params : List Param) (locals : Traverse (List Dec)) (body : Expr) :
    Traverse (List Dec × Expr) := do
  let next ← enterRoutine
  traverseParams 1 1 params
  let ds ← locals
  let b ← body.traverse
  leaveRoutine next
  return (ds, b)

mutual

/-- Traverses a declaration after `k` others. -/
def Dec.traverse (k : Nat) : Dec → Traverse Dec
  | .var l x ty v => visit .var do
    let v ← v.traverse
    report ((← visible).typeNameErrors ty l)
    declareNext k .var x ty l
    return .var l x ty v
  | .func l x ret params locals body => visit .func do
    report ((← visible).typeNameErrors ret l)
    declareNext k .func x (.function (signatureOf params ret)) l
    let (ds, b) ← traverseRoutine params (traverseLocals 0 locals) body
    return .func l x ret params ds b

def traverseLocals (k : Nat) : List Dec → Traverse (List Dec)
  | [] => return []
  | d :: ds => return (← d.traverse k) :: (← traverseLocals (k + 1) ds)

end

def Method.traverse (m : Method) : Traverse Method := visit .method do
  let (ds, b) ← traverseRoutine m.params (traverseLocals 0 m.locals) m.body
  return { m with locals := ds, body := b }

/-- A member is declared unless it is refused. -/
def noteMember (level : Nat) (x : Ident) (ty : Ty) : Except Refusal Int → Traverse Unit
  | .ok offset => note (.declare · .member x ⟨level, ty, offset⟩)
  | .error _ => return

/-- Declares fields, in a class that is declared where `env` is visible. -/
def traverseFields (env : Env) (s : Members) : List Field → Traverse Unit
  | [] => return
  | f :: fs => do
    report (env.typeNameErrors f.ty f.line ++ s.fieldErrors f)
    noteMember (env.level + 1) f.id f.ty (s.fieldSlot f.id)
    traverseFields env (s.addField (env.level + 1) f) fs

/-- Declares methods, none of which is looked into yet. -/
def registerMethods (env : Env) (s : Members) : List Method → Traverse Unit
  | [] => return
  | m :: ms => do
    report (env.typeNameErrors m.ret m.line ++ s.methodErrors m)
    noteMember (env.level + 1) m.id (.method m.signature) (s.methodSlot m.id)
    registerMethods env (s.addMethod (env.level + 1) m) ms

/-- Looks into a method that is not refused. -/
def Method.traverseIn (m : Method) : Except Refusal Int → Traverse Method
  | .ok offset => return { ← m.traverse with offset := offset }
  | .error _ => return m

def traverseMethods (level : Nat) (s : Members) : List Method → Traverse (List Method)
  | [] => return []
  | m :: ms => return (← m.traverseIn (s.methodSlot m.id)) :: (← traverseMethods level (s.addMethod level m) ms)

/-- A superclass is looked up. -/
def Class.lookUpSuper (c : Class) : Traverse Unit :=
  match c.super with
  | none => return
  | some s => note (.lookup · s)

/-- What is visible once the name of a class is entered.  The class is declared where `outer` is visible. -/
def Env.addClass (outer : Env) (c : Class) (e : Entry) (env : Env) : Env :=
  { env.insert c.id e with
    tables := (c.id, (outer.members c).table) :: outer.tables
    layouts := (c.id, (outer.members c).layout) :: outer.layouts
    hierarchy := outer.hierarchyAfter c }

/-- Traverses a class after `k` others.  Its offset is taken before its members are declared, and its name is declared
after them. -/
def Class.traverse (k : Nat) (c : Class) : Traverse Class := visit .cls do
  let env ← visible
  let level := env.level + 1
  let members := env.members c
  c.lookUpSuper
  report (c.superErrors env)
  let offset ← takeOffset
  note (.lookup · c.id)
  report (if env.redeclared c then [.alreadyDeclared .cls c.id c.line] else [])
  traverseFields env (env.inherited c) c.fields
  registerMethods env (env.withFields c) c.methods
  let e : Entry := ⟨env.level, .cls members.layout, offset⟩
  note (.declare · (.dec k) c.id e)
  change (env.addClass c e)
  enterMembers level members.table
  let ms ← traverseMethods level (env.withFields c) c.methods
  leaveMembers level
  return { c with
    fields := resolveFields level (env.inherited c) c.fields
    methods := ms
    layout := some members.layout
    superEntry := env.superEntry c }

def traverseClasses (k : Nat) : List Class → Traverse (List Class)
  | [] => return []
  | c :: cs => return (← c.traverse k) :: (← traverseClasses (k + 1) cs)

namespace Program

def traverse : Program → Traverse Program
  | .letIn cs ds body =>
    return .letIn (← traverseClasses 0 cs) (← traverseLocals cs.length ds) (← body.traverse)
  | .expr body => return .expr (← body.traverse)

/-- The traversal of a program: the tree it comes to, and the state it ends in. -/
def traversal (p : Program) : Program × Traversal := p.traverse.run ⟨p.initialEnv, [], []⟩

end Program

/-! ## What a traversal does -/

namespace Traverse

/-- Where `env` is visible, a traversal comes to `a`, reports `es` and leaves `env'` visible. -/
def Does {α : Type} (w : Traverse α) (env : Env) (a : α) (env' : Env) (es : List NameError) : Prop :=
  ∀ s : Traversal, s.env = env →
    (w.run s).1 = a ∧ (w.run s).2.env = env' ∧ (w.run s).2.errors = s.errors ++ es

namespace Does

variable {α β : Type} {w : Traverse α} {f : α → Traverse β} {env env' env'' : Env} {a : α} {b : β}
  {es es' : List NameError}

theorem pure (a : α) (env : Env) : Does (pure a) env a env [] :=
  fun s hs => ⟨rfl, hs, (List.append_nil s.errors).symm⟩

theorem bind (hw : Does w env a env' es) (hf : Does (f a) env' b env'' es') :
    Does (w >>= f) env b env'' (es ++ es') := by
  intro s hs
  obtain ⟨ha, henv, herr⟩ := hw s hs
  obtain ⟨hb, henv', herr'⟩ := hf (w.run s).2 henv
  have hrun : (w >>= f).run s = (f a).run (w.run s).2 := by rw [← ha]; rfl
  rw [hrun]
  exact ⟨hb, henv', by rw [herr', herr, List.append_assoc]⟩

theorem of_eq (hw : Does w env a env' es) (h : es = es') : Does w env a env' es' := h ▸ hw

theorem visible (env : Env) : Does Traverse.visible env env env [] :=
  fun s hs => ⟨hs, hs, (List.append_nil s.errors).symm⟩

theorem change (g : Env → Env) (env : Env) : Does (Traverse.change g) env () (g env) [] :=
  fun s hs => ⟨rfl, congrArg g hs, (List.append_nil s.errors).symm⟩

theorem report (es : List NameError) (env : Env) : Does (Traverse.report es) env () env es := fun _ hs => ⟨rfl, hs, rfl⟩

theorem note (event : Env → Event) (env : Env) : Does (Traverse.note event) env () env [] :=
  fun s hs => ⟨rfl, hs, (List.append_nil s.errors).symm⟩

theorem visit (part : Part) (hw : Does w env a env' es) : Does (visit part w) env a env' es :=
  ((visible env).bind (hw.bind ((note _ env').bind (pure a env')))).of_eq (by simp)

theorem lookUp (x : Ident) (env : Env) : Does (lookUp x) env env env [] := (note _ env).bind (visible env)

theorem takeOffset (env : Env) :
    Does takeOffset env env.next { env with next := wrapOffset (env.next - 1) } [] :=
  (visible env).bind ((change _ env).bind (pure _ _))

theorem declare (place : DeclPlace) (kind : DeclKind) (x : Ident) (e : Entry) (line : Nat) (env : Env) :
    Does (declare place kind x e line) env () (env.insert x e) (env.declareErrors kind x line) :=
  ((note _ env).bind ((visible env).bind ((report _ env).bind (change _ env)))).of_eq (List.append_nil _)

/-- What is entered into a scope does not depend on the next offset. -/
theorem insert_next_eq (env : Env) (x : Ident) (e : Entry) (n : Int) :
    { env with next := n }.insert x e = { env.insert x e with next := n } := by
  obtain ⟨scopes, level, next, classNames, tables, layouts, hierarchy⟩ := env
  cases scopes <;> rfl

theorem declareNext (k : Nat) (kind : DeclKind) (x : Ident) (ty : Ty) (line : Nat) (env : Env) :
    Does (declareNext k kind x ty line) env () (env.declare x ty) (env.declareErrors kind x line) := by
  have h := declare (.dec k) kind x ⟨env.level, ty, env.next⟩ line { env with next := wrapOffset (env.next - 1) }
  rw [insert_next_eq] at h
  exact .bind (.visible env) (.bind (.takeOffset env) h)

end Does

end Traverse

/-! ## What is visible inside a routine -/

/-- Between the lines of a routine that is entered where `outer` is visible. -/
def Env.Encloses (outer env : Env) : Prop :=
  ∃ S n, env = { outer with scopes := S :: outer.scopes, level := outer.level + 1, next := n }

namespace Env.Encloses

variable {outer env : Env}

theorem enter (outer : Env) : outer.Encloses outer.enter := ⟨[], -2, rfl⟩

theorem insert (h : outer.Encloses env) (x : Ident) (e : Entry) : outer.Encloses (env.insert x e) := by
  obtain ⟨S, n, rfl⟩ := h
  exact ⟨(x, e) :: S, n, rfl⟩

theorem bindParams : ∀ (ps : List Param) {env : Env} {offset : Int}, outer.Encloses env →
    outer.Encloses (env.bindParams offset ps)
  | [], _, _, h => h
  | p :: ps, _, _, h => bindParams ps (h.insert p.id _)

theorem after (h : outer.Encloses env) (d : Dec) : outer.Encloses (env.after d) := by
  obtain ⟨S, n, rfl⟩ := h
  cases d with
  | var | func => exact ⟨_ :: S, wrapOffset (n - 1), rfl⟩

theorem afterAll : ∀ (ds : List Dec) {env : Env}, outer.Encloses env → outer.Encloses (env.afterAll ds)
  | [], _, h => h
  | d :: ds, _, h => afterAll ds (h.after d)

/-- **A routine leaves what is visible as it was.** -/
theorem leave (h : outer.Encloses env) :
    { env with scopes := env.scopes.tail, level := env.level - 1, next := outer.next } = outer := by
  obtain ⟨S, n, rfl⟩ := h
  rfl

end Env.Encloses

/-! ## The traversal of each construct -/

mutual

theorem Expr.traverse_does (env : Env) : ∀ e : Expr, Does e.traverse env (e.resolve env) env (e.nameErrors env)
  | .int _ _ | .bool _ _ | .null _ => .visit .expr (.pure _ env)
  | .binary _ _ a b => by
    refine .of_eq (.visit .expr <| .bind (a.traverse_does env) <| .bind (b.traverse_does env) <| .pure _ env) ?_
    simp [Expr.nameErrors]
  | .not _ a | .print _ a => by
    refine .of_eq (.visit .expr <| .bind (a.traverse_does env) <| .pure _ env) ?_
    exact List.append_nil _
  | .cond _ c t e => by
    refine .of_eq (.visit .expr <| .bind (c.traverse_does env) <| .bind (t.traverse_does env) <|
      .bind (e.traverse_does env) <| .pure _ env) ?_
    simp [Expr.nameErrors]
  | .id l u => by
    refine .of_eq (.visit .expr <| .bind (.lookUp u.id env) <| .bind (.report _ env) <| .pure _ env) ?_
    exact List.append_nil _
  | .call l u args => by
    refine .of_eq (.visit .expr <| .bind (.lookUp u.id env) <| .bind (.report _ env) <|
      .bind (traverseArgs_does env args) <| .pure _ env) ?_
    simp [Expr.nameErrors]
  | .send l u m entry args => by
    have hlast : Does (match env.sendTarget u.id m with
        | .ok (object, method) =>
          return .send l ⟨u.id, env.level, some object⟩ m (some method) (resolveArgs env args)
        | .error _ => return .send l (.fresh u.id) m none (resolveArgs env args))
        env ((Expr.send l u m entry args).resolve env) env [] := by
      rw [Expr.resolve]
      cases env.sendTarget u.id m with
      | ok target | error r => exact .pure _ env
    refine .of_eq (.visit .expr <| .bind (.lookUp u.id env) <| .bind (.report _ env) <|
      .bind (traverseArgs_does env args) hlast) ?_
    simp [Expr.nameErrors]
  | .new l c _ args => by
    refine .of_eq (.visit .expr <| .bind (.lookUp c env) <| .bind (.report _ env) <|
      .bind (traverseArgs_does env args) <| .pure _ env) ?_
    simp [Expr.nameErrors]

theorem traverseArgs_does (env : Env) : ∀ es : List Expr,
    Does (traverseArgs es) env (resolveArgs env es) env (argNameErrors env es)
  | [] => .pure _ env
  | e :: es => by
    refine .of_eq (.bind (e.traverse_does env) <| .bind (traverseArgs_does env es) <| .pure _ env) ?_
    simp [argNameErrors]

end

theorem traverseParams_does : ∀ (ps : List Param) (i : Nat) (offset : Int) (env : Env),
    Does (traverseParams i offset ps) env () (env.bindParams offset ps) (env.paramErrors offset ps)
  | [], _, _, env => .pure _ env
  | p :: ps, i, offset, env => by
    refine .of_eq (.bind (.visible env) <| .bind (.report _ env) <| .bind (.declare _ .param p.id _ p.line env) <|
      traverseParams_does ps _ _ _) ?_
    simp [Env.paramErrors]

theorem enterRoutine_does (env : Env) : Does enterRoutine env env.next env.enter [] :=
  .bind (.visible env) (.bind (.change _ env) (.pure _ _))

theorem leaveRoutine_does {outer env : Env} (h : outer.Encloses env) :
    Does (leaveRoutine outer.next) env () outer [] := by
  have hchange := Does.change (fun env => { env with
    scopes := env.scopes.tail, level := env.level - 1, next := outer.next }) env
  rw [h.leave] at hchange
  exact hchange

/-- A routine, given what the traversal of its local declarations does. -/
theorem traverseRoutine_does {env : Env} {params : List Param} {locals ds : List Dec} {w : Traverse (List Dec)}
    {es : List NameError} (hw : Does w (env.inRoutine params) ds ((env.inRoutine params).afterAll locals) es)
    (body : Expr) : Does (traverseRoutine params w body) env
      (ds, body.resolve ((env.inRoutine params).afterAll locals)) env
      (env.enter.paramErrors 1 params ++ es ++ body.nameErrors ((env.inRoutine params).afterAll locals)) := by
  have hin : env.Encloses ((env.inRoutine params).afterAll locals) :=
    ((Env.Encloses.enter env).bindParams params).afterAll locals
  refine .of_eq (.bind (enterRoutine_does env) <| .bind (traverseParams_does params 1 1 env.enter) <| .bind hw <|
    .bind (body.traverse_does _) <| .bind (leaveRoutine_does hin) <| .pure _ env) ?_
  simp

mutual

theorem Dec.traverse_does : ∀ (d : Dec) (k : Nat) (env : Env),
    Does (d.traverse k) env (d.resolve env) (env.after d) (d.nameErrors env)
  | .var l x ty v, k, env => by
    refine .of_eq (.visit .var <| .bind (v.traverse_does env) <| .bind (.visible env) <| .bind (.report _ env) <|
      .bind (.declareNext k .var x ty l env) <| .pure _ _) ?_
    simp [Dec.nameErrors]
  | .func l x ret params locals body, k, env => by
    have hroutine := traverseRoutine_does
      (traverseLocals_does locals 0 ((env.declare x (.function (signatureOf params ret))).inRoutine params)) body
    refine .of_eq (.visit .func <| .bind (.visible env) <| .bind (.report _ env) <|
      .bind (.declareNext k .func x _ l env) <| .bind hroutine <| .pure _ _) ?_
    simp [Dec.nameErrors]

theorem traverseLocals_does : ∀ (ds : List Dec) (k : Nat) (env : Env),
    Does (traverseLocals k ds) env (resolveLocals env ds) (env.afterAll ds) (localNameErrors env ds)
  | [], _, env => .pure _ env
  | d :: ds, k, env => by
    refine .of_eq (.bind (d.traverse_does k env) <| .bind (traverseLocals_does ds (k + 1) (env.after d)) <|
      .pure _ _) ?_
    simp [localNameErrors]

end

theorem Method.traverse_does (m : Method) (env : Env) :
    Does m.traverse env (m.resolve env) env (m.nameErrors env) := by
  have hroutine := traverseRoutine_does (traverseLocals_does m.locals 0 (env.inRoutine m.params)) m.body
  refine .of_eq (.visit .method <| .bind hroutine <| .pure _ env) ?_
  exact List.append_nil _

/-! ## Classes -/

theorem noteMember_does (level : Nat) (x : Ident) (ty : Ty) (slot : Except Refusal Int) (env : Env) :
    Does (noteMember level x ty slot) env () env [] := by
  cases slot with
  | ok offset => exact .note _ env
  | error r => exact .pure _ env

section

variable (outer env : Env)

theorem traverseFields_does : ∀ (fs : List Field) (s : Members),
    Does (traverseFields outer s fs) env () env (fieldsErrors outer s fs)
  | [], _ => .pure _ env
  | f :: fs, s => by
    refine .of_eq (.bind (.report _ env) <| .bind (noteMember_does _ _ _ _ env) <| traverseFields_does fs _) ?_
    simp [fieldsErrors]

theorem registerMethods_does : ∀ (ms : List Method) (s : Members),
    Does (registerMethods outer s ms) env () env (methodsErrors outer s ms)
  | [], _ => .pure _ env
  | m :: ms, s => by
    refine .of_eq (.bind (.report _ env) <| .bind (noteMember_does _ _ _ _ env) <| registerMethods_does ms _) ?_
    simp [methodsErrors]

theorem traverseMethods_does (level : Nat) : ∀ (ms : List Method) (s : Members),
    Does (traverseMethods level s ms) env (resolveMethods env level s ms) env (bodiesErrors env level s ms)
  | [], _ => .pure _ env
  | m :: ms, s => by
    have ih := traverseMethods_does level ms (s.addMethod level m)
    rw [traverseMethods, resolveMethods, bodiesErrors]
    cases s.methodSlot m.id with
    | ok offset =>
      refine .of_eq (.bind (.bind (m.traverse_does env) <| .pure _ env) <| .bind ih <| .pure _ env) ?_
      simp
    | error r =>
      refine .of_eq (.bind (.pure m env) <| .bind ih <| .pure _ env) ?_
      simp

end

theorem Class.lookUpSuper_does (c : Class) (env : Env) : Does c.lookUpSuper env () env [] := by
  unfold Class.lookUpSuper
  split
  · exact .pure _ env
  · exact .note _ env

/-- A class leaves what is visible as it is after the declaration of its name. -/
theorem Env.leave_inClass (env : Env) (c : Class) :
    { env.inClass c with scopes := (env.inClass c).scopes.tail, level := env.level + 1 - 1 } = env.afterClass c := by
  have hlevel : (env.afterClass c).level = env.level := Env.insert_level _ _ _
  rw [Nat.add_sub_cancel, ← hlevel]
  rfl

theorem Class.traverse_does (c : Class) (k : Nat) (env : Env) :
    Does (c.traverse k) env (c.resolve env) (env.afterClass c) (c.nameErrors env) := by
  let taken : Env := { env with next := wrapOffset (env.next - 1) }
  let e : Entry := ⟨env.level, .cls (env.members c).layout, env.next⟩
  have hdeclare : Does (change (env.addClass c e)) taken () (env.afterClass c) [] := by
    have hadd : env.addClass c e taken = env.afterClass c := by
      rw [Env.addClass, Does.insert_next_eq]
      rfl
    exact hadd ▸ .change _ taken
  have hleave : Does (leaveMembers (env.level + 1)) (env.inClass c) () (env.afterClass c) [] := by
    have hchange := Does.change (fun env' : Env =>
      { env' with scopes := env'.scopes.tail, level := env.level + 1 - 1 }) (env.inClass c)
    rw [env.leave_inClass c] at hchange
    exact hchange
  refine .of_eq (.visit .cls <| .bind (.visible env) <| .bind (c.lookUpSuper_does env) <| .bind (.report _ env) <|
    .bind (.takeOffset env) <| .bind (.note _ taken) <| .bind (.report _ taken) <|
    .bind (traverseFields_does env taken c.fields _) <| .bind (registerMethods_does env taken c.methods _) <|
    .bind (.note _ taken) <| .bind hdeclare <| .bind (.change _ _) <|
    .bind (traverseMethods_does (env.inClass c) _ c.methods _) <| .bind hleave <| .pure _ _) ?_
  simp [Class.nameErrors]

theorem traverseClasses_does : ∀ (cs : List Class) (k : Nat) (env : Env),
    Does (traverseClasses k cs) env (resolveClasses env cs) (cs.foldl Env.afterClass env) (classesNameErrors env cs)
  | [], _, env => .pure _ env
  | c :: cs, k, env => by
    refine .of_eq (.bind (c.traverse_does k env) <| .bind (traverseClasses_does cs (k + 1) _) <| .pure _ _) ?_
    simp [classesNameErrors]

namespace Program

theorem traverse_does (p : Program) : Does p.traverse p.initialEnv p.resolve p.mainEnv p.nameErrors := by
  cases p with
  | letIn cs ds body =>
    refine .of_eq (.bind (traverseClasses_does cs 0 _) <| .bind (traverseLocals_does ds cs.length _) <|
      .bind (body.traverse_does _) <| .pure _ _) ?_
    simp [Program.nameErrors, Program.classEnv, Program.mainEnv, Program.classes, Program.decs, Program.body]
  | expr body =>
    refine .of_eq (.bind (body.traverse_does _) <| .pure _ _) ?_
    simp [Program.nameErrors, Program.classEnv, Program.mainEnv, Program.classes, Program.decs, Program.body,
      classesNameErrors, localNameErrors, Env.afterAll]

/-- **The traversal resolves the names of a program**, reports what is wrong with them, and ends where the main
expression stands. -/
theorem traversal_eq (p : Program) :
    p.traversal.1 = p.resolve ∧ p.traversal.2.env = p.mainEnv ∧ p.traversal.2.errors = p.nameErrors := by
  obtain ⟨htree, henv, herrors⟩ := p.traverse_does ⟨p.initialEnv, [], []⟩ rfl
  exact ⟨htree, henv, herrors⟩

end Program
end FoolLang
