import FoolLang.Proofs.RelabelScopes
/-!
# RelabelNames — resolved names and wrong names, relabelled

Under names that stay apart every use is resolved to the same entry, and the same names are wrong for the same reasons.
-/
namespace FoolLang

variable {r : Relabel} (hr : Function.Injective r.name)

include hr

/-! ## Entries -/

@[simp] theorem Env.use_relabel (env : Env) (x : Ident) : (env.relabel r).use (r.name x) = (env.use x).relabel r := by
  unfold use
  rw [lookup_relabel hr]
  cases env.lookup x <;> rfl

omit hr in
mutual

/-- **Every use in an expression is resolved alike.** -/
theorem Expr.resolve_relabel (hr : Function.Injective r.name) (env : Env) :
    ∀ e : Expr, (e.relabel r).resolve (env.relabel r) = (e.resolve env).relabel r
  | .int _ _ | .bool _ _ | .null _ => rfl
  | .binary l op a b => by
    simp only [Expr.relabel, Expr.resolve, Expr.resolve_relabel hr env a, Expr.resolve_relabel hr env b]
  | .not l a | .print l a => by simp only [Expr.relabel, Expr.resolve, Expr.resolve_relabel hr env a]
  | .cond l c t e => by
    simp only [Expr.relabel, Expr.resolve, Expr.resolve_relabel hr env c, Expr.resolve_relabel hr env t,
      Expr.resolve_relabel hr env e]
  | .id l u => by
    simp only [Expr.relabel, Expr.resolve]
    exact congrArg (Expr.id _) (Env.use_relabel hr env u.id)
  | .call l u args => by
    simp only [Expr.relabel, Expr.resolve, resolveArgs_relabel hr env args]
    exact congrArg (Expr.call _ · _) (Env.use_relabel hr env u.id)
  | .send l u m _ args => by
    have htarget := Env.sendTarget_relabel hr env u.id m
    simp only [Expr.relabel, Expr.resolve, resolveArgs_relabel hr env args,
      show (u.relabel r).id = r.name u.id from rfl, htarget]
    cases env.sendTarget u.id m <;> rfl
  | .new l c _ args => by
    simp only [Expr.relabel, Expr.resolve, resolveArgs_relabel hr env args, Env.instantiable_relabel hr]

theorem resolveArgs_relabel (hr : Function.Injective r.name) (env : Env) : ∀ es : List Expr,
    resolveArgs (env.relabel r) (relabelArgs r es) = relabelArgs r (resolveArgs env es)
  | [] => rfl
  | e :: es => by simp only [relabelArgs, resolveArgs, Expr.resolve_relabel hr env e, resolveArgs_relabel hr env es]

end

omit hr in
mutual

theorem Dec.resolve_relabel (hr : Function.Injective r.name) (env : Env) :
    ∀ d : Dec, (d.relabel r).resolve (env.relabel r) = (d.resolve env).relabel r
  | .var l x ty v => by simp only [Dec.relabel, Dec.resolve, Expr.resolve_relabel hr env v]
  | .func l x ret ps ls body => by
    simp only [Dec.relabel, Dec.resolve, Env.declare_function_relabel, Env.inRoutine_relabel,
      resolveLocals_relabel hr _ ls]
    rw [relabelLocals_eq, relabelLocals_eq, Env.afterAll_relabel, Expr.resolve_relabel hr]

theorem resolveLocals_relabel (hr : Function.Injective r.name) (env : Env) : ∀ ds : List Dec,
    resolveLocals (env.relabel r) (relabelLocals r ds) = relabelLocals r (resolveLocals env ds)
  | [] => rfl
  | d :: ds => by
    simp only [relabelLocals, resolveLocals, Dec.resolve_relabel hr env d, Env.after_relabel,
      resolveLocals_relabel hr _ ds]

end

theorem resolveLocals_map (env : Env) (ds : List Dec) :
    resolveLocals (env.relabel r) (ds.map (Dec.relabel r)) = (resolveLocals env ds).map (Dec.relabel r) := by
  rw [← relabelLocals_eq, ← relabelLocals_eq, resolveLocals_relabel hr]

theorem Method.resolve_relabel (env : Env) (m : Method) :
    (m.relabel r).resolve (env.relabel r) = (m.resolve env).relabel r := by
  simp only [resolve, relabel, Env.inRoutine_relabel, resolveLocals_map hr, Env.afterAll_relabel,
    Expr.resolve_relabel hr]

theorem resolveFields_relabel (level : Nat) : ∀ (fs : List Field) (s : Members),
    resolveFields level (s.relabel r) (fs.map (Field.relabel r)) = (resolveFields level s fs).map (Field.relabel r)
  | [], _ => rfl
  | f :: fs, s => by
    have hslot := Members.fieldSlot_relabel hr s f.id
    simp only [List.map_cons, resolveFields, Members.addField_relabel hr, resolveFields_relabel level fs]
    simp only [Field.relabel, hslot]

theorem resolveMethods_relabel (env : Env) (level : Nat) : ∀ (ms : List Method) (s : Members),
    resolveMethods (env.relabel r) level (s.relabel r) (ms.map (Method.relabel r)) =
      (resolveMethods env level s ms).map (Method.relabel r)
  | [], _ => rfl
  | m :: ms, s => by
    have hslot : (s.relabel r).methodSlot (m.relabel r).id = s.methodSlot m.id := Members.methodSlot_relabel hr s m.id
    simp only [List.map_cons, resolveMethods, hslot, Members.addMethod_relabel hr, resolveMethods_relabel env level ms,
      Method.resolve_relabel hr]
    cases s.methodSlot m.id <;> rfl

theorem Class.resolve_relabel (env : Env) (c : Class) :
    (c.relabel r).resolve (env.relabel r) = (c.resolve env).relabel r := by
  have hfields := resolveFields_relabel hr (env.level + 1) c.fields (env.inherited c)
  have hmethods := resolveMethods_relabel hr (env.inClass c) (env.level + 1) c.methods (env.withFields c)
  simp only [resolve, Env.inherited_relabel hr, Env.inClass_relabel hr, Env.withFields_relabel hr,
    Env.members_relabel hr, Env.superEntry_relabel hr]
  exact congrArg₂ (fun fs ms => Class.mk _ _ _ fs ms _ _) hfields hmethods

theorem resolveClasses_relabel : ∀ (cs : List Class) (env : Env),
    resolveClasses (env.relabel r) (cs.map (Class.relabel r)) = (resolveClasses env cs).map (Class.relabel r)
  | [], _ => rfl
  | c :: cs, env => by
    simp only [List.map_cons, resolveClasses, Class.resolve_relabel hr, Env.afterClass_relabel hr,
      resolveClasses_relabel cs]

/-- **A program under other names is resolved alike.** -/
theorem Program.resolve_relabel (p : Program) : (p.relabel r).resolve = p.resolve.relabel r := by
  have hinit := p.initialEnv_relabel (r := r)
  have hclass := p.classEnv_relabel hr
  have hmain := p.mainEnv_relabel hr
  cases p with
  | letIn cs ds body =>
    rw [relabel] at hinit hclass hmain ⊢
    rw [resolve, hinit, hclass, hmain, resolveClasses_relabel hr, resolveLocals_map hr, Expr.resolve_relabel hr]
    rfl
  | expr body =>
    rw [relabel] at hmain ⊢
    rw [resolve, hmain, Expr.resolve_relabel hr]
    rfl

/-! ## Wrong names -/

namespace Env

theorem typeNameErrors_relabel (env : Env) (ty : Ty) (l : Nat) :
    (env.relabel r).typeNameErrors (ty.relabel r) (r.line l) = (env.typeNameErrors ty l).map (NameError.relabel r) := by
  cases ty with
  | ref c =>
    simp only [Ty.relabel, typeNameErrors, relabel, mem_map_name hr]
    split <;> rfl
  | _ => rfl

theorem declareErrors_relabel (env : Env) (kind : DeclKind) (x : Ident) (l : Nat) :
    (env.relabel r).declareErrors kind (r.name x) (r.line l) =
      (env.declareErrors kind x l).map (NameError.relabel r) := by
  rw [declareErrors, declareErrors, declaredHere_relabel hr]
  split <;> rfl

theorem useErrors_relabel (env : Env) (kind : UseKind) (x : Ident) (l : Nat) :
    (env.relabel r).useErrors kind (r.name x) (r.line l) = (env.useErrors kind x l).map (NameError.relabel r) := by
  rw [useErrors, useErrors, lookup_relabel hr, Option.isSome_map]
  split <;> rfl

theorem sendErrors_relabel (env : Env) (o m : Ident) (l : Nat) :
    (env.relabel r).sendErrors (r.name o) (r.name m) (r.line l) =
      (env.sendErrors o m l).map (NameError.relabel r) := by
  rw [sendErrors, sendErrors, sendTarget_relabel hr]
  cases env.sendTarget o m with
  | ok t => rfl
  | error e => cases e <;> rfl

theorem newErrors_relabel (env : Env) (c : Ident) (l : Nat) :
    (env.relabel r).newErrors (r.name c) (r.line l) = (env.newErrors c l).map (NameError.relabel r) := by
  rw [newErrors, newErrors, tables_relabel hr, Option.isSome_map]
  split <;> rfl

theorem paramErrors_relabel : ∀ (ps : List Param) (offset : Int) (env : Env),
    (env.relabel r).paramErrors offset (ps.map (Param.relabel r)) =
      (env.paramErrors offset ps).map (NameError.relabel r)
  | [], _, _ => rfl
  | p :: ps, offset, env => by
    have hrest := paramErrors_relabel ps (wrapOffset (offset + 1)) (env.insert p.id ⟨env.level, p.ty, offset⟩)
    rw [← insert_relabel] at hrest
    simp only [List.map_cons, paramErrors, List.map_append, ← typeNameErrors_relabel hr, ← declareErrors_relabel hr,
      ← hrest]
    rfl

end Env

omit hr in
mutual

theorem Expr.nameErrors_relabel (hr : Function.Injective r.name) (env : Env) : ∀ e : Expr,
    (e.relabel r).nameErrors (env.relabel r) = (e.nameErrors env).map (NameError.relabel r)
  | .int _ _ | .bool _ _ | .null _ => rfl
  | .binary _ _ a b => by
    simp only [Expr.relabel, Expr.nameErrors, Expr.nameErrors_relabel hr env a, Expr.nameErrors_relabel hr env b,
      List.map_append]
  | .not _ a | .print _ a => by simp only [Expr.relabel, Expr.nameErrors, Expr.nameErrors_relabel hr env a]
  | .cond _ c t e => by
    simp only [Expr.relabel, Expr.nameErrors, Expr.nameErrors_relabel hr env c, Expr.nameErrors_relabel hr env t,
      Expr.nameErrors_relabel hr env e, List.map_append]
  | .id l u => Env.useErrors_relabel hr env .value u.id l
  | .call l u args => by
    simp only [Expr.relabel, Expr.nameErrors, List.map_append, argNameErrors_relabel hr env args]
    exact congrArg (· ++ _) (Env.useErrors_relabel hr env .callee u.id l)
  | .send l u m _ args => by
    simp only [Expr.relabel, Expr.nameErrors, List.map_append, argNameErrors_relabel hr env args]
    exact congrArg (· ++ _) (Env.sendErrors_relabel hr env u.id m l)
  | .new l c _ args => by
    simp only [Expr.relabel, Expr.nameErrors, List.map_append, argNameErrors_relabel hr env args,
      Env.newErrors_relabel hr]

theorem argNameErrors_relabel (hr : Function.Injective r.name) (env : Env) : ∀ es : List Expr,
    argNameErrors (env.relabel r) (relabelArgs r es) = (argNameErrors env es).map (NameError.relabel r)
  | [] => rfl
  | e :: es => by
    simp only [relabelArgs, argNameErrors, Expr.nameErrors_relabel hr env e, argNameErrors_relabel hr env es,
      List.map_append]

end

omit hr in
mutual

theorem Dec.nameErrors_relabel (hr : Function.Injective r.name) (env : Env) : ∀ d : Dec,
    (d.relabel r).nameErrors (env.relabel r) = (d.nameErrors env).map (NameError.relabel r)
  | .var l x ty v => by
    simp only [Dec.relabel, Dec.nameErrors, List.map_append, Expr.nameErrors_relabel hr env v,
      Env.typeNameErrors_relabel hr, Env.declareErrors_relabel hr]
  | .func l x ret ps ls body => by
    simp only [Dec.relabel, Dec.nameErrors, Env.declare_function_relabel, Env.inRoutine_relabel, List.map_append,
      localNameErrors_relabel hr _ ls, Env.typeNameErrors_relabel hr, Env.declareErrors_relabel hr, Env.enter_relabel,
      Env.paramErrors_relabel hr]
    rw [relabelLocals_eq, Env.afterAll_relabel, Expr.nameErrors_relabel hr]

theorem localNameErrors_relabel (hr : Function.Injective r.name) (env : Env) : ∀ ds : List Dec,
    localNameErrors (env.relabel r) (relabelLocals r ds) = (localNameErrors env ds).map (NameError.relabel r)
  | [] => rfl
  | d :: ds => by
    simp only [relabelLocals, localNameErrors, Dec.nameErrors_relabel hr env d, Env.after_relabel,
      localNameErrors_relabel hr _ ds, List.map_append]

end

theorem localNameErrors_map (env : Env) (ds : List Dec) :
    localNameErrors (env.relabel r) (ds.map (Dec.relabel r)) = (localNameErrors env ds).map (NameError.relabel r) := by
  rw [← relabelLocals_eq, localNameErrors_relabel hr]

theorem Method.nameErrors_relabel (env : Env) (m : Method) :
    (m.relabel r).nameErrors (env.relabel r) = (m.nameErrors env).map (NameError.relabel r) := by
  simp only [nameErrors, relabel, Env.inRoutine_relabel, Env.enter_relabel, List.map_append,
    Env.paramErrors_relabel hr, localNameErrors_map hr, Env.afterAll_relabel, Expr.nameErrors_relabel hr]

theorem Members.fieldErrors_relabel (s : Members) (f : Field) :
    (s.relabel r).fieldErrors (f.relabel r) = (s.fieldErrors f).map (NameError.relabel r) := by
  have hslot : (s.relabel r).fieldSlot (f.relabel r).id = s.fieldSlot f.id := fieldSlot_relabel hr s f.id
  rw [fieldErrors, fieldErrors, hslot]
  cases s.fieldSlot f.id with
  | ok offset => rfl
  | error e => cases e <;> rfl

theorem Members.methodErrors_relabel (s : Members) (m : Method) :
    (s.relabel r).methodErrors (m.relabel r) = (s.methodErrors m).map (NameError.relabel r) := by
  have hslot : (s.relabel r).methodSlot (m.relabel r).id = s.methodSlot m.id := methodSlot_relabel hr s m.id
  rw [methodErrors, methodErrors, hslot]
  cases s.methodSlot m.id with
  | ok offset => rfl
  | error e => cases e <;> rfl

theorem fieldsErrors_relabel (env : Env) : ∀ (fs : List Field) (s : Members),
    fieldsErrors (env.relabel r) (s.relabel r) (fs.map (Field.relabel r)) =
      (fieldsErrors env s fs).map (NameError.relabel r)
  | [], _ => rfl
  | f :: fs, s => by
    have hty := Env.typeNameErrors_relabel hr env f.ty f.line
    have hrest := fieldsErrors_relabel env fs (s.addField (env.level + 1) f)
    rw [← Members.addField_relabel hr] at hrest
    simp only [List.map_cons, fieldsErrors, List.map_append, ← Members.fieldErrors_relabel hr, ← hty, ← hrest]
    rfl

theorem methodsErrors_relabel (env : Env) : ∀ (ms : List Method) (s : Members),
    methodsErrors (env.relabel r) (s.relabel r) (ms.map (Method.relabel r)) =
      (methodsErrors env s ms).map (NameError.relabel r)
  | [], _ => rfl
  | m :: ms, s => by
    have hty := Env.typeNameErrors_relabel hr env m.ret m.line
    have hrest := methodsErrors_relabel env ms (s.addMethod (env.level + 1) m)
    rw [← Members.addMethod_relabel hr] at hrest
    simp only [List.map_cons, methodsErrors, List.map_append, ← Members.methodErrors_relabel hr, ← hty, ← hrest]
    rfl

theorem bodiesErrors_relabel (inner : Env) (level : Nat) : ∀ (ms : List Method) (s : Members),
    bodiesErrors (inner.relabel r) level (s.relabel r) (ms.map (Method.relabel r)) =
      (bodiesErrors inner level s ms).map (NameError.relabel r)
  | [], _ => rfl
  | m :: ms, s => by
    have hslot : (s.relabel r).methodSlot (m.relabel r).id = s.methodSlot m.id := Members.methodSlot_relabel hr s m.id
    simp only [List.map_cons, bodiesErrors, hslot, Members.addMethod_relabel hr, bodiesErrors_relabel inner level ms,
      List.map_append, Method.nameErrors_relabel hr]
    cases s.methodSlot m.id <;> rfl

theorem Class.superErrors_relabel (env : Env) (c : Class) :
    (c.relabel r).superErrors (env.relabel r) = (c.superErrors env).map (NameError.relabel r) := by
  rw [superErrors, superErrors, show (c.relabel r).super = c.super.map r.name from rfl]
  cases c.super with
  | none => rfl
  | some s =>
    simp only [Option.map_some, Env.tables_relabel hr, Option.isSome_map]
    split <;> rfl

theorem Class.nameErrors_relabel (env : Env) (c : Class) :
    (c.relabel r).nameErrors (env.relabel r) = (c.nameErrors env).map (NameError.relabel r) := by
  have hfields := fieldsErrors_relabel hr env c.fields (env.inherited c)
  have hmethods := methodsErrors_relabel hr env c.methods (env.withFields c)
  have hbodies := bodiesErrors_relabel hr (env.inClass c) (env.level + 1) c.methods (env.withFields c)
  have hredeclared : (if env.redeclared c then [NameError.alreadyDeclared .cls (r.name c.id) (r.line c.line)] else []) =
      (if env.redeclared c then [NameError.alreadyDeclared .cls c.id c.line] else []).map (NameError.relabel r) := by
    split <;> rfl
  simp only [nameErrors, List.map_append, superErrors_relabel hr, Env.redeclared_relabel hr, Env.inherited_relabel hr,
    Env.withFields_relabel hr, Env.inClass_relabel hr, ← hfields, ← hmethods, ← hbodies, ← hredeclared]
  rfl

theorem classesNameErrors_relabel : ∀ (cs : List Class) (env : Env),
    classesNameErrors (env.relabel r) (cs.map (Class.relabel r)) = (classesNameErrors env cs).map (NameError.relabel r)
  | [], _ => rfl
  | c :: cs, env => by
    simp only [List.map_cons, classesNameErrors, Class.nameErrors_relabel hr, Env.afterClass_relabel hr,
      classesNameErrors_relabel cs, List.map_append]

/-- **The same names are wrong**, for the same reasons. -/
theorem Program.nameErrors_relabel (p : Program) :
    (p.relabel r).nameErrors = p.nameErrors.map (NameError.relabel r) := by
  simp only [nameErrors, classes_relabel, decs_relabel, body_relabel, initialEnv_relabel, classEnv_relabel hr,
    mainEnv_relabel hr, classesNameErrors_relabel hr, localNameErrors_map hr, Expr.nameErrors_relabel hr,
    List.map_append]

end FoolLang
