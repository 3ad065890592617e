import FoolLang.Proofs.Relabel
import FoolLang.Scope.Errors
import Mathlib.Data.List.Basic
/-!
# RelabelScopes — resolving commutes with other names and other lines

A scope is asked for a name by its spelling alone, so under names that stay apart it answers as before
(`Env.lookup_relabel`).  What is visible at a point of a relabelled program is then the same up to names, and with it
the entry of every use (`Program.resolve_relabel`) and everything that is wrong with a name
(`Program.nameErrors_relabel`).
-/
namespace FoolLang

variable (r : Relabel)

/-- Pairs, the first component of each a name. -/
def relabelKeys {α β : Type} (f : α → β) (l : List (Ident × α)) : List (Ident × β) := l.map (Prod.map r.name f)

def Scope.relabel (s : Scope) : Scope := relabelKeys r (Entry.relabel r) s

def Hierarchy.relabel (h : Hierarchy) : Hierarchy := ⟨relabelKeys r r.name h.supers⟩

def Env.relabel (env : Env) : Env :=
  ⟨env.scopes.map (Scope.relabel r), env.level, env.next, env.classNames.map r.name,
    relabelKeys r (Scope.relabel r) env.tables, relabelKeys r (Layout.relabel r) env.layouts, env.hierarchy.relabel r⟩

def Members.relabel (s : Members) : Members := ⟨s.table.relabel r, s.layout.relabel r, s.seen.map r.name⟩

def SendError.relabel : SendError → SendError
  | .noReceiver => .noReceiver
  | .notAnObject => .notAnObject
  | .noMethod c => .noMethod (r.name c)

def NameError.relabel : NameError → NameError
  | .alreadyDeclared kind x l => .alreadyDeclared kind (r.name x) (r.line l)
  | .notDeclared kind x l => .notDeclared kind (r.name x) (r.line l)
  | .notAnObject x l => .notAnObject (r.name x) (r.line l)
  | .methodNotDeclared c m l => .methodNotDeclared (r.name c) (r.name m) (r.line l)
  | .fieldOverridesMethod x l => .fieldOverridesMethod (r.name x) (r.line l)
  | .methodOverridesField x l => .methodOverridesField (r.name x) (r.line l)

variable {r}

/-! ## What stays -/

@[simp] theorem Ty.isMethod_relabel (t : Ty) : (t.relabel r).isMethod = t.isMethod := by cases t <;> rfl

@[simp] theorem signatureOf_relabel (ps : List Param) (t : Ty) :
    signatureOf (ps.map (Param.relabel r)) (t.relabel r) = (signatureOf ps t).relabel r := by
  simp [signatureOf, Signature.relabel, Function.comp_def, Param.relabel]

@[simp] theorem Method.signature_relabel (m : Method) : (m.relabel r).signature = m.signature.relabel r :=
  signatureOf_relabel m.params m.ret

theorem Signature.relabel_eq (s : Signature) : s.relabel r = ⟨s.params.map (Ty.relabel r), s.ret.relabel r⟩ := by
  cases s
  simp [Signature.relabel]

theorem Layout.relabel_eq (l : Layout) :
    l.relabel r = ⟨l.fields.map (Ty.relabel r), l.methods.map (Signature.relabel r)⟩ := by
  cases l
  simp [Layout.relabel]

theorem foldl_relabel {α β γ δ : Type} {f : α → γ} {g : β → δ} {step : α → β → α} {step' : γ → δ → γ}
    (h : ∀ a b, step' (f a) (g b) = f (step a b)) (l : List β) (a : α) :
    (l.map g).foldl step' (f a) = f (l.foldl step a) := by
  rw [List.foldl_map]
  exact List.foldl_hom f h

/-! ## Scopes -/

section Injective

variable (hr : Function.Injective r.name)

include hr

theorem lookup_relabelKeys {α β : Type} (f : α → β) (x : Ident) : ∀ l : List (Ident × α),
    (relabelKeys r f l).lookup (r.name x) = (l.lookup x).map f
  | [] => rfl
  | (y, a) :: l => by
    have ih := lookup_relabelKeys f x l
    by_cases h : x = y
    · subst h
      simp [relabelKeys]
    · have hname : (r.name x == r.name y) = false := by simpa using hr.ne h
      have hxy : (x == y) = false := by simpa using h
      rw [List.lookup_cons, hxy, ← ih]
      simp [relabelKeys, List.lookup_cons, hname]

theorem mem_map_name {x : Ident} {xs : List Ident} : r.name x ∈ xs.map r.name ↔ x ∈ xs :=
  List.mem_map_of_injective hr

@[simp] theorem Scope.lookup_relabel (s : Scope) (x : Ident) :
    (s.relabel r).lookup (r.name x) = (s.lookup x).map (Entry.relabel r) := lookup_relabelKeys hr _ x s

namespace Env

@[simp] theorem lookup_relabel (env : Env) (x : Ident) :
    (env.relabel r).lookup (r.name x) = (env.lookup x).map (Entry.relabel r) := by
  simp only [lookup, relabel, List.findSome?_map, List.map_findSome?]
  exact congrArg (List.findSome? · env.scopes) (funext fun s => Scope.lookup_relabel hr s x)

omit hr in
@[simp] theorem globals_relabel (env : Env) : (env.relabel r).globals = env.globals.relabel r := by
  simp only [globals, relabel, List.getLast?_map]
  cases env.scopes.getLast? <;> rfl

@[simp] theorem declaredHere_relabel (env : Env) (x : Ident) :
    (env.relabel r).declaredHere (r.name x) = env.declaredHere x := by
  cases h : env.scopes with
  | nil => simp [declaredHere, relabel, h]
  | cons s ss => simp [declaredHere, relabel, h, hr]

omit hr in
@[simp] theorem insert_relabel (env : Env) (x : Ident) (e : Entry) :
    (env.relabel r).insert (r.name x) (e.relabel r) = (env.insert x e).relabel r := by
  cases h : env.scopes with
  | nil => simp [insert, relabel, h]
  | cons s ss => simp [insert, relabel, h, Scope.relabel, relabelKeys]

omit hr in
@[simp] theorem declare_relabel (env : Env) (x : Ident) (ty : Ty) :
    (env.relabel r).declare (r.name x) (ty.relabel r) = (env.declare x ty).relabel r := by
  unfold declare
  rw [show (⟨(env.relabel r).level, ty.relabel r, (env.relabel r).next⟩ : Entry) =
    (⟨env.level, ty, env.next⟩ : Entry).relabel r from rfl, insert_relabel]
  rfl

omit hr in
theorem declare_function_relabel (env : Env) (x : Ident) (ps : List Param) (ret : Ty) :
    (env.relabel r).declare (r.name x) (.function (signatureOf (ps.map (Param.relabel r)) (ret.relabel r))) =
      (env.declare x (.function (signatureOf ps ret))).relabel r := by
  rw [signatureOf_relabel]
  exact declare_relabel env x (.function _)

omit hr in
@[simp] theorem enter_relabel (env : Env) : (env.relabel r).enter = env.enter.relabel r := rfl

omit hr in
@[simp] theorem bindParams_relabel : ∀ (ps : List Param) (offset : Int) (env : Env),
    (env.relabel r).bindParams offset (ps.map (Param.relabel r)) = (env.bindParams offset ps).relabel r
  | [], _, _ => rfl
  | p :: ps, offset, env => by
    rw [List.map_cons, bindParams, bindParams, ← bindParams_relabel ps, ← insert_relabel]
    rfl

omit hr in
@[simp] theorem after_relabel (env : Env) (d : Dec) :
    (env.relabel r).after (d.relabel r) = (env.after d).relabel r := by
  cases d with
  | var l x ty v => exact declare_relabel env x ty
  | func l x ret ps ls body => exact declare_function_relabel env x ps ret

omit hr in
@[simp] theorem afterAll_relabel (ds : List Dec) (env : Env) :
    (env.relabel r).afterAll (ds.map (Dec.relabel r)) = (env.afterAll ds).relabel r :=
  foldl_relabel after_relabel ds env

omit hr in
@[simp] theorem inRoutine_relabel (env : Env) (ps : List Param) :
    (env.relabel r).inRoutine (ps.map (Param.relabel r)) = (env.inRoutine ps).relabel r := by
  simp [inRoutine]

@[simp] theorem tables_relabel (env : Env) (c : Ident) :
    (env.relabel r).tables.lookup (r.name c) = (env.tables.lookup c).map (Scope.relabel r) :=
  lookup_relabelKeys hr _ c env.tables

@[simp] theorem layouts_relabel (env : Env) (c : Ident) :
    (env.relabel r).layouts.lookup (r.name c) = (env.layouts.lookup c).map (Layout.relabel r) :=
  lookup_relabelKeys hr _ c env.layouts

@[simp] theorem instantiable_relabel (env : Env) (c : Ident) :
    (env.relabel r).instantiable (r.name c) = (env.instantiable c).map (Entry.relabel r) := by
  simp only [instantiable, tables_relabel hr, globals_relabel, Scope.lookup_relabel hr, Option.isSome_map]
  split <;> rfl

/-- **A method call has the same target.** -/
theorem sendTarget_relabel (env : Env) (o m : Ident) :
    (env.relabel r).sendTarget (r.name o) (r.name m) =
      ((env.sendTarget o m).map (Prod.map (Entry.relabel r) (Entry.relabel r))).mapError (SendError.relabel r) := by
  unfold sendTarget
  rw [lookup_relabel hr]
  cases env.lookup o with
  | none => rfl
  | some e =>
    obtain ⟨level, ty, offset⟩ := e
    cases ty with
    | ref c =>
      simp only [Option.map_some, Entry.relabel, Ty.relabel, tables_relabel hr]
      cases env.tables.lookup c with
      | none => rfl
      | some s =>
        simp only [Option.map_some, Option.bind_some, Scope.lookup_relabel hr]
        cases s.lookup m with
        | none => rfl
        | some e =>
          by_cases h : e.ty.isMethod <;>
            simp [h, Entry.relabel, Except.map, Except.mapError, SendError.relabel, Ty.relabel]
    | _ => rfl

end Env

/-! ## Members -/

omit hr in
theorem place_map {α β : Type} (f : α → β) (i : Nat) (a : α) (l : List α) :
    place i (f a) (l.map f) = (place i a l).map f := by
  unfold place
  rw [List.length_map]
  split
  · exact (List.map_set).symm
  · simp

namespace Members

@[simp] theorem fieldSlot_relabel (s : Members) (x : Ident) : (s.relabel r).fieldSlot (r.name x) = s.fieldSlot x := by
  simp only [fieldSlot, relabel, mem_map_name hr, Scope.lookup_relabel hr, Layout.relabel_eq, List.length_map]
  cases s.table.lookup x <;> simp [Entry.relabel]

@[simp] theorem methodSlot_relabel (s : Members) (x : Ident) :
    (s.relabel r).methodSlot (r.name x) = s.methodSlot x := by
  simp only [methodSlot, relabel, mem_map_name hr, Scope.lookup_relabel hr, Layout.relabel_eq, List.length_map]
  cases s.table.lookup x <;> simp [Entry.relabel]

theorem fieldPlace_relabel (s : Members) (x : Ident) : (s.relabel r).fieldPlace (r.name x) = s.fieldPlace x := by
  simp only [fieldPlace, relabel, Scope.lookup_relabel hr, Layout.relabel_eq, List.length_map]
  cases s.table.lookup x <;> rfl

theorem methodPlace_relabel (s : Members) (x : Ident) : (s.relabel r).methodPlace (r.name x) = s.methodPlace x := by
  simp only [methodPlace, relabel, Scope.lookup_relabel hr, Layout.relabel_eq, List.length_map]
  cases s.table.lookup x <;> rfl

@[simp] theorem addField_relabel (level : Nat) (s : Members) (f : Field) :
    (s.relabel r).addField level (f.relabel r) = (s.addField level f).relabel r := by
  have hslot := fieldSlot_relabel hr s f.id
  have hplace := fieldPlace_relabel hr s f.id
  unfold addField
  simp only [Field.relabel, hslot, hplace]
  cases s.fieldSlot f.id with
  | error e => rfl
  | ok offset => simp [relabel, Scope.relabel, relabelKeys, Entry.relabel, Layout.relabel_eq, place_map]

@[simp] theorem addMethod_relabel (level : Nat) (s : Members) (m : Method) :
    (s.relabel r).addMethod level (m.relabel r) = (s.addMethod level m).relabel r := by
  have hslot := methodSlot_relabel hr s m.id
  have hplace := methodPlace_relabel hr s m.id
  unfold addMethod
  simp only [Method.signature_relabel]
  simp only [Method.relabel, hslot, hplace]
  cases s.methodSlot m.id with
  | error e => rfl
  | ok offset => simp [relabel, Scope.relabel, relabelKeys, Entry.relabel, Layout.relabel_eq, place_map, Ty.relabel]

end Members

/-! ## Classes -/

theorem Hierarchy.declare_relabel (h : Hierarchy) (c s : Ident) :
    (h.relabel r).declare (r.name c) (r.name s) = (h.declare c s).relabel r := by
  simp only [declare, relabel, relabelKeys, List.map_cons, List.filter_map]
  refine congrArg (fun l => Hierarchy.mk (_ :: List.map _ l)) (List.filter_congr fun p _ => ?_)
  simp [hr.eq_iff]

namespace Env

@[simp] theorem inherited_relabel (env : Env) (c : Class) :
    (env.relabel r).inherited (c.relabel r) = (env.inherited c).relabel r := by
  unfold inherited
  cases h : c.super with
  | none =>
    simp only [Class.relabel, h]
    rfl
  | some s =>
    simp only [Class.relabel, h, Option.map_some, tables_relabel hr, layouts_relabel hr]
    cases env.tables.lookup s with
    | none => rfl
    | some table => cases env.layouts.lookup s <;> rfl

@[simp] theorem withFields_relabel (env : Env) (c : Class) :
    (env.relabel r).withFields (c.relabel r) = (env.withFields c).relabel r := by
  unfold withFields
  rw [inherited_relabel hr]
  exact foldl_relabel (Members.addField_relabel hr _) _ _

@[simp] theorem members_relabel (env : Env) (c : Class) :
    (env.relabel r).members (c.relabel r) = (env.members c).relabel r := by
  unfold members
  rw [withFields_relabel hr]
  exact foldl_relabel (Members.addMethod_relabel hr _) _ _

@[simp] theorem superEntry_relabel (env : Env) (c : Class) :
    (env.relabel r).superEntry (c.relabel r) = (env.superEntry c).map (Entry.relabel r) := by
  simp only [superEntry, Class.relabel]
  cases c.super with
  | none => rfl
  | some s => exact instantiable_relabel hr env s

@[simp] theorem redeclared_relabel (env : Env) (c : Class) :
    (env.relabel r).redeclared (c.relabel r) = env.redeclared c := by
  simp [redeclared, Class.relabel, hr]

@[simp] theorem hierarchyAfter_relabel (env : Env) (c : Class) :
    (env.relabel r).hierarchyAfter (c.relabel r) = (env.hierarchyAfter c).relabel r := by
  unfold hierarchyAfter
  rw [superEntry_relabel hr, redeclared_relabel hr, show (c.relabel r).super = c.super.map r.name from rfl]
  cases c.super with
  | none => rfl
  | some s =>
    cases env.superEntry c with
    | none => rfl
    | some e =>
      simp only [Option.map_some]
      split
      · rfl
      · exact Hierarchy.declare_relabel hr env.hierarchy c.id s

@[simp] theorem afterClass_relabel (env : Env) (c : Class) :
    (env.relabel r).afterClass (c.relabel r) = (env.afterClass c).relabel r := by
  unfold afterClass
  rw [members_relabel hr, hierarchyAfter_relabel hr]
  have hdeclare := declare_relabel (r := r) env c.id (.cls (env.members c).layout)
  exact congrArg (fun env' : Env => { env' with
    tables := (r.name c.id, (env.members c).table.relabel r) :: relabelKeys r (Scope.relabel r) env.tables
    layouts := (r.name c.id, (env.members c).layout.relabel r) :: relabelKeys r (Layout.relabel r) env.layouts
    hierarchy := (env.hierarchyAfter c).relabel r }) hdeclare

@[simp] theorem inClass_relabel (env : Env) (c : Class) :
    (env.relabel r).inClass (c.relabel r) = (env.inClass c).relabel r := by
  unfold inClass
  rw [afterClass_relabel hr, members_relabel hr]
  rfl

end Env

namespace Program

omit hr in
@[simp] theorem classes_relabel (p : Program) : (p.relabel r).classes = p.classes.map (Class.relabel r) := by
  cases p <;> rfl

omit hr in
@[simp] theorem decs_relabel (p : Program) : (p.relabel r).decs = p.decs.map (Dec.relabel r) := by cases p <;> rfl

omit hr in
@[simp] theorem body_relabel (p : Program) : (p.relabel r).body = p.body.relabel r := by cases p <;> rfl

omit hr in
@[simp] theorem initialEnv_relabel (p : Program) : (p.relabel r).initialEnv = p.initialEnv.relabel r := by
  have hids : (p.classes.map (Class.relabel r)).map Class.id = (p.classes.map Class.id).map r.name := by
    rw [List.map_map, List.map_map]
    rfl
  rw [initialEnv, classes_relabel, hids]
  rfl

@[simp] theorem classEnv_relabel (p : Program) : (p.relabel r).classEnv = p.classEnv.relabel r := by
  unfold classEnv
  rw [classes_relabel, initialEnv_relabel]
  exact foldl_relabel (Env.afterClass_relabel hr) _ _

@[simp] theorem mainEnv_relabel (p : Program) : (p.relabel r).mainEnv = p.mainEnv.relabel r := by
  simp [mainEnv, hr]

end Program
end Injective
end FoolLang
