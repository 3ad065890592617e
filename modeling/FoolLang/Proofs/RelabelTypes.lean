import FoolLang.Compile
import FoolLang.Proofs.RelabelNames
import FoolLang.Proofs.Subtypes
/-!
# RelabelTypes — checking commutes with other names and other lines

A class lies below another exactly if it does under other names, as long as the names stay apart.  So an expression
keeps its type, up to names, or the error that it has instead (`Expr.type_relabel`), and the declarations keep theirs.
-/
namespace FoolLang

variable (r : Relabel)

def Classes.relabel (k : Classes) : Classes := ⟨k.hierarchy.relabel r, relabelKeys r (Layout.relabel r) k.layouts⟩

def TypeError.relabel : TypeError → TypeError
  | .incomplete => .incomplete
  | .wrongValue x l => .wrongValue (r.name x) (r.line l)
  | .wrongReturn role x l => .wrongReturn role (r.name x) (r.line l)
  | .notABoolean l => .notABoolean (r.line l)
  | .notACondition l => .notACondition (r.line l)
  | .wrongBranches l => .wrongBranches (r.line l)
  | .wrongUsage role x l => .wrongUsage role (r.name x) (r.line l)
  | .notAFunction x l => .notAFunction (r.name x) (r.line l)
  | .wrongOperands op l => .wrongOperands op (r.line l)
  | .wrongCount a x l => .wrongCount a (r.name x) (r.line l)
  | .wrongArgument n a x l => .wrongArgument n a (r.name x) (r.line l)
  | .wrongMethod x l => .wrongMethod (r.name x) (r.line l)
  | .wrongField x l => .wrongField (r.name x) (r.line l)

/-- The outcome of a check. -/
def relabelChecked {α β : Type} (f : α → β) : Except TypeError α → Except TypeError β
  | .ok a => .ok (f a)
  | .error e => .error (e.relabel r)

variable {r}

/-- Checks one after the other are relabelled one after the other. -/
theorem relabelChecked_bind {α β γ δ : Type} {f : α → γ} {g : β → δ} {x : Except TypeError α}
    {next : α → Except TypeError β} {next' : γ → Except TypeError δ}
    (h : ∀ a, next' (f a) = relabelChecked r g (next a)) :
    (relabelChecked r f x >>= next') = relabelChecked r g (x >>= next) := by
  cases x with
  | ok a => exact h a
  | error e => rfl

theorem relabelChecked_ite {α β : Type} {f : α → β} {p : Prop} [Decidable p] {x y : Except TypeError α}
    {x' y' : Except TypeError β} (hx : x' = relabelChecked r f x) (hy : y' = relabelChecked r f y) :
    (if p then x' else y') = relabelChecked r f (if p then x else y) := by
  split
  · exact hx
  · exact hy

section Injective

variable (hr : Function.Injective r.name)

include hr

/-! ## Subtyping -/

namespace Hierarchy

theorem superOf_relabel (h : Hierarchy) (c : Ident) :
    (h.relabel r).superOf (r.name c) = (h.superOf c).map r.name := lookup_relabelKeys hr _ c h.supers

theorem chain_relabel (h : Hierarchy) : ∀ (n : Nat) (c : Ident),
    (h.relabel r).chain n (r.name c) = (h.chain n c).map r.name
  | 0, _ => rfl
  | n + 1, c => by
    rw [chain, chain, superOf_relabel hr, List.map_cons]
    cases h.superOf c with
    | none => rfl
    | some s => exact congrArg _ (chain_relabel h n s)

theorem ancestors_relabel (h : Hierarchy) (c : Ident) :
    (h.relabel r).ancestors (r.name c) = (h.ancestors c).map r.name := by
  rw [ancestors, ancestors, ← chain_relabel hr]
  simp [relabel, relabelKeys]

theorem simpleBelow_relabel (h : Hierarchy) (a b : Ty) :
    (h.relabel r).simpleBelow (a.relabel r) (b.relabel r) = h.simpleBelow a b := by
  cases a with
  | ref c =>
    cases b with
    | ref d => simp only [Ty.relabel, simpleBelow, ancestors_relabel hr, mem_map_name hr]
    | _ => rfl
  | _ => cases b <;> rfl

theorem compare_relabel_simple (h : Hierarchy) (dir : Direction) {a : Ty} (ha : a.IsSimple) (b : Ty) :
    (h.relabel r).compare dir (a.relabel r) (b.relabel r) = h.compare dir a b := by
  have hsimple : (a.relabel r).IsSimple := by cases a <;> exact ha
  cases dir with
  | up => rw [compare_up ha, compare_up hsimple, simpleBelow_relabel hr]
  | down => rw [compare_down ha, compare_down hsimple, simpleBelow_relabel hr]

omit hr in
mutual

theorem compare_relabel (hr : Function.Injective r.name) (h : Hierarchy) : ∀ (dir : Direction) (a b : Ty),
    (h.relabel r).compare dir (a.relabel r) (b.relabel r) = h.compare dir a b
  | dir, .function s, .function t => by
    rw [Ty.relabel, Ty.relabel, compare, compare]
    exact compareSignature_relabel hr h dir s t
  | dir, .method s, .method t => by
    rw [Ty.relabel, Ty.relabel, compare, compare]
    exact compareSignature_relabel hr h dir s t
  | dir, .int, b | dir, .bool, b | dir, .null, b | dir, .ref _, b | dir, .cls _, b =>
    compare_relabel_simple hr h dir (by trivial) b
  | dir, .function _, .int | dir, .function _, .bool | dir, .function _, .null | dir, .function _, .ref _
  | dir, .function _, .method _ | dir, .function _, .cls _ | dir, .method _, .int | dir, .method _, .bool
  | dir, .method _, .null | dir, .method _, .ref _ | dir, .method _, .function _ | dir, .method _, .cls _ => by
    cases dir <;> rfl

theorem compareSignature_relabel (hr : Function.Injective r.name) (h : Hierarchy) :
    ∀ (dir : Direction) (s t : Signature),
    (h.relabel r).compareSignature dir (s.relabel r) (t.relabel r) = h.compareSignature dir s t
  | dir, ⟨ps, p⟩, ⟨qs, q⟩ => by
    simp only [Signature.relabel, compareSignature, compare_relabel hr h dir p q,
      compareAll_relabel hr h dir.flip ps qs]

theorem compareAll_relabel (hr : Function.Injective r.name) (h : Hierarchy) : ∀ (dir : Direction) (ps qs : List Ty),
    (h.relabel r).compareAll dir (relabelTypes r ps) (relabelTypes r qs) = h.compareAll dir ps qs
  | _, [], [] | _, [], _ :: _ | _, _ :: _, [] => rfl
  | dir, p :: ps, q :: qs => by
    simp only [relabelTypes, compareAll, compare_relabel hr h dir p q, compareAll_relabel hr h dir ps qs]

end

theorem isSubtype_relabel (h : Hierarchy) (a b : Ty) :
    (h.relabel r).isSubtype (a.relabel r) (b.relabel r) = h.isSubtype a b := compare_relabel hr h .up a b

theorem isSubsignature_relabel (h : Hierarchy) (s t : Signature) :
    (h.relabel r).isSubsignature (s.relabel r) (t.relabel r) = h.isSubsignature s t :=
  compareSignature_relabel hr h .up s t

theorem leastCommon_relabel (h : Hierarchy) (a b : Ty) :
    (h.relabel r).leastCommon (a.relabel r) (b.relabel r) = (h.leastCommon a b).map (Ty.relabel r) := by
  have hint : ∀ t : Ty, (h.relabel r).isSubtype (t.relabel r) .int = h.isSubtype t .int := fun t =>
    isSubtype_relabel hr h t .int
  unfold leastCommon
  rw [hint, hint]
  split
  · cases a with
    | bool => cases b <;> rfl
    | _ => rfl
  · cases a with
    | null => cases b <;> rfl
    | ref c =>
      cases b with
      | ref d =>
        have hbelow : ((fun x => (h.relabel r).isSubtype (.ref (r.name d)) (.ref x)) ∘ r.name) =
            fun x => h.isSubtype (.ref d) (.ref x) := funext fun x => isSubtype_relabel hr h (.ref d) (.ref x)
        simp only [Ty.relabel, ancestors_relabel hr, List.find?_map, hbelow, Option.map_map]
        rfl
      | _ => rfl
    | _ => cases b <;> rfl

end Hierarchy

/-! ## Expressions -/

omit hr in
theorem Use.valueType_relabel (u : Use) (l : Nat) :
    (u.relabel r).valueType (r.line l) = relabelChecked r (Ty.relabel r) (u.valueType l) := by
  obtain ⟨x, level, entry⟩ := u
  cases entry with
  | none => rfl
  | some e =>
    obtain ⟨level', ty, offset⟩ := e
    cases ty <;> rfl

omit hr in
theorem Use.calleeSignature_relabel (u : Use) (l : Nat) :
    (u.relabel r).calleeSignature (r.line l) = relabelChecked r (Signature.relabel r) (u.calleeSignature l) := by
  obtain ⟨x, level, entry⟩ := u
  cases entry with
  | none => rfl
  | some e =>
    obtain ⟨level', ty, offset⟩ := e
    cases ty <;> rfl

omit hr in
theorem methodSignature_relabel (entry : Option Entry) :
    methodSignature (entry.map (Entry.relabel r)) = relabelChecked r (Signature.relabel r) (methodSignature entry) := by
  cases entry with
  | none => rfl
  | some e =>
    obtain ⟨level, ty, offset⟩ := e
    cases ty <;> rfl

namespace Classes

theorem fieldsOf_relabel (k : Classes) (c : Ident) (entry : Option Entry) :
    (k.relabel r).fieldsOf (r.name c) (entry.map (Entry.relabel r)) =
      relabelChecked r (List.map (Ty.relabel r)) (k.fieldsOf c entry) := by
  have hlookup : (k.relabel r).layouts.lookup (r.name c) = (k.layouts.lookup c).map (Layout.relabel r) :=
    lookup_relabelKeys hr _ c k.layouts
  unfold fieldsOf
  rw [hlookup]
  cases entry with
  | none => rfl
  | some e =>
    cases k.layouts.lookup c with
    | none => rfl
    | some l => simp only [Option.map_some, Layout.relabel_eq, relabelChecked]

theorem isSubtype_relabel (k : Classes) (a b : Ty) :
    (k.relabel r).hierarchy.isSubtype (a.relabel r) (b.relabel r) = k.hierarchy.isSubtype a b :=
  Hierarchy.isSubtype_relabel hr k.hierarchy a b

theorem isSubtype_int_relabel (k : Classes) (a : Ty) :
    (k.relabel r).hierarchy.isSubtype (a.relabel r) .int = k.hierarchy.isSubtype a .int :=
  k.isSubtype_relabel hr a .int

theorem isSubtype_bool_relabel (k : Classes) (a : Ty) :
    (k.relabel r).hierarchy.isSubtype (a.relabel r) .bool = k.hierarchy.isSubtype a .bool :=
  k.isSubtype_relabel hr a .bool

theorem leastCommon_relabel (k : Classes) (a b : Ty) :
    (k.relabel r).hierarchy.leastCommon (a.relabel r) (b.relabel r) =
      (k.hierarchy.leastCommon a b).map (Ty.relabel r) :=
  Hierarchy.leastCommon_relabel hr k.hierarchy a b

theorem binary_relabel (k : Classes) (op : BinOp) (a b : Ty) (l : Nat) :
    (k.relabel r).binary op (a.relabel r) (b.relabel r) (r.line l) =
      relabelChecked r (Ty.relabel r) (k.binary op a b l) := by
  cases op <;> simp only [binary, isSubtype_relabel hr, isSubtype_int_relabel hr, isSubtype_bool_relabel hr] <;>
    exact relabelChecked_ite rfl rfl

end Classes

omit hr in
/-- What is applied has its type if the arguments fit. -/
theorem applied_relabel {k : Classes} {args : List Expr} {ps : List Ty} {wrong wrong' : Nat → TypeError}
    (count : TypeError) (ty : Ty)
    (hargs : checkArgs (k.relabel r) wrong' 1 (relabelArgs r args) (ps.map (Ty.relabel r)) =
      relabelChecked r id (checkArgs k wrong 1 args ps)) :
    (if (relabelArgs r args).length ≠ (ps.map (Ty.relabel r)).length then .error (count.relabel r)
      else do
        checkArgs (k.relabel r) wrong' 1 (relabelArgs r args) (ps.map (Ty.relabel r))
        return ty.relabel r) =
    relabelChecked r (Ty.relabel r) (if args.length ≠ ps.length then .error count
      else do
        checkArgs k wrong 1 args ps
        return ty) := by
  rw [hargs, relabelArgs_eq, List.length_map, List.length_map]
  exact relabelChecked_ite rfl (relabelChecked_bind fun _ => rfl)

mutual

/-- **An expression has the same type, or the same error.** -/
theorem Expr.type_relabel (k : Classes) : ∀ e : Expr,
    (e.relabel r).type (k.relabel r) = relabelChecked r (Ty.relabel r) (e.type k)
  | .int _ _ | .bool _ _ | .null _ => rfl
  | .binary l op a b => by
    rw [Expr.relabel, Expr.type, Expr.type, Expr.type_relabel k a, Expr.type_relabel k b]
    exact relabelChecked_bind fun left => relabelChecked_bind fun right => Classes.binary_relabel hr k op left right l
  | .not l a => by
    rw [Expr.relabel, Expr.type, Expr.type, Expr.type_relabel k a]
    refine relabelChecked_bind fun ty => ?_
    rw [Classes.isSubtype_bool_relabel hr]
    exact relabelChecked_ite rfl rfl
  | .cond l c t e => by
    rw [Expr.relabel, Expr.type, Expr.type, Expr.type_relabel k c, Expr.type_relabel k t, Expr.type_relabel k e]
    refine relabelChecked_bind fun test => ?_
    rw [Classes.isSubtype_bool_relabel hr]
    refine relabelChecked_ite (relabelChecked_bind fun yes => relabelChecked_bind fun no => ?_) rfl
    rw [Classes.leastCommon_relabel hr]
    cases k.hierarchy.leastCommon yes no <;> rfl
  | .print _ a => Expr.type_relabel k a
  | .id l u => Use.valueType_relabel u l
  | .call l u args => by
    rw [Expr.relabel, Expr.type, Expr.type, Use.calleeSignature_relabel]
    refine relabelChecked_bind fun s => ?_
    rw [Signature.relabel_eq]
    exact applied_relabel (.wrongCount .invocation u.id l) s.ret
      (checkArgs_relabel k (.wrongArgument · .invocation u.id l) args s.params 1)
  | .send l u m entry args => by
    rw [Expr.relabel, Expr.type, Expr.type, methodSignature_relabel]
    refine relabelChecked_bind fun s => ?_
    rw [Signature.relabel_eq]
    exact applied_relabel (.wrongCount .invocation m l) s.ret
      (checkArgs_relabel k (.wrongArgument · .invocation m l) args s.params 1)
  | .new l c entry args => by
    rw [Expr.relabel, Expr.type, Expr.type, Classes.fieldsOf_relabel hr]
    refine relabelChecked_bind fun fields => ?_
    exact applied_relabel (.wrongCount .instantiation c l) (.ref c)
      (checkArgs_relabel k (.wrongArgument · .instantiation c l) args fields 1)

theorem checkArgs_relabel (k : Classes) (wrong : Nat → TypeError) : ∀ (es : List Expr) (ps : List Ty) (n : Nat),
    checkArgs (k.relabel r) (fun n => (wrong n).relabel r) n (relabelArgs r es) (ps.map (Ty.relabel r)) =
      relabelChecked r id (checkArgs k wrong n es ps)
  | [], _, _ => by simp [checkArgs]; rfl
  | _ :: _, [], _ => rfl
  | e :: es, p :: ps, n => by
    rw [relabelArgs, List.map_cons, checkArgs, checkArgs, Expr.type_relabel k e]
    refine relabelChecked_bind fun ty => ?_
    rw [Classes.isSubtype_relabel hr]
    exact relabelChecked_ite (checkArgs_relabel k wrong es ps (n + 1)) rfl

end

theorem checkBelow_relabel (k : Classes) (e : Expr) (ty : Ty) (wrong : TypeError) :
    (e.relabel r).checkBelow (k.relabel r) (ty.relabel r) (wrong.relabel r) =
      relabelChecked r id (e.checkBelow k ty wrong) := by
  rw [Expr.checkBelow, Expr.checkBelow, Expr.type_relabel hr]
  refine relabelChecked_bind fun own => ?_
  rw [Classes.isSubtype_relabel hr]
  exact relabelChecked_ite rfl rfl

/-! ## Declarations -/

omit hr in
theorem reported_relabel (x : Except TypeError Unit) :
    reported (relabelChecked r id x) = (reported x).map (TypeError.relabel r) := by
  cases x with
  | ok u => rfl
  | error e => cases e <;> rfl

/-- The report of a check of a value. -/
theorem reported_checkBelow_relabel (k : Classes) (e : Expr) (ty : Ty) (wrong : TypeError) :
    reported ((e.relabel r).checkBelow (k.relabel r) (ty.relabel r) (wrong.relabel r)) =
      (reported (e.checkBelow k ty wrong)).map (TypeError.relabel r) := by
  rw [checkBelow_relabel hr, reported_relabel]

omit hr in
mutual

theorem Dec.typeErrors_relabel (hr : Function.Injective r.name) (k : Classes) : ∀ d : Dec,
    (d.relabel r).typeErrors (k.relabel r) = (d.typeErrors k).map (TypeError.relabel r)
  | .var l x ty v => reported_checkBelow_relabel hr k v ty (.wrongValue x l)
  | .func l x ret _ ls body => by
    rw [Dec.relabel, Dec.typeErrors, Dec.typeErrors, localTypeErrors_relabel hr k ls, List.map_append,
      ← reported_checkBelow_relabel hr k body ret (.wrongReturn .function x l)]
    rfl

theorem localTypeErrors_relabel (hr : Function.Injective r.name) (k : Classes) : ∀ ds : List Dec,
    localTypeErrors (k.relabel r) (relabelLocals r ds) = (localTypeErrors k ds).map (TypeError.relabel r)
  | [] => rfl
  | d :: ds => by
    rw [relabelLocals, localTypeErrors, localTypeErrors, Dec.typeErrors_relabel hr k d, localTypeErrors_relabel hr k ds,
      List.map_append]

end

theorem localTypeErrors_map (k : Classes) (ds : List Dec) :
    localTypeErrors (k.relabel r) (ds.map (Dec.relabel r)) = (localTypeErrors k ds).map (TypeError.relabel r) := by
  rw [← relabelLocals_eq, localTypeErrors_relabel hr]

theorem Method.typeErrors_relabel (k : Classes) (m : Method) :
    (m.relabel r).typeErrors (k.relabel r) = (m.typeErrors k).map (TypeError.relabel r) := by
  rw [typeErrors, typeErrors, List.map_append, ← localTypeErrors_map hr,
    ← reported_checkBelow_relabel hr k m.body m.ret (.wrongReturn .method m.id m.line)]
  rfl

omit hr in
theorem conflictAt_map {α β : Type} {f : α → β} {below : α → α → Bool} {below' : β → β → Bool}
    (h : ∀ a b, below' (f a) (f b) = below a b) (own inherited : List α) (i : Nat) :
    conflictAt below' (own.map f) (inherited.map f) i = conflictAt below own inherited i := by
  unfold conflictAt
  rw [List.getElem?_map, List.getElem?_map]
  cases own[i]? with
  | none => rfl
  | some a =>
    cases inherited[i]? with
    | none => rfl
    | some b => exact congrArg Bool.not (h a b)

theorem Class.overrideErrors_relabel (k : Classes) (c : Class) :
    (c.relabel r).overrideErrors (k.relabel r) = (c.overrideErrors k).map (TypeError.relabel r) := by
  obtain ⟨line, id, super, fields, methods, layout, superEntry⟩ := c
  cases layout with
  | none => rfl
  | some own =>
    cases superEntry with
    | none => rfl
    | some e =>
      obtain ⟨level, ty, offset⟩ := e
      cases ty with
      | cls parent =>
        have hfields := conflictAt_map (Hierarchy.isSubtype_relabel hr k.hierarchy) own.fields parent.fields
        have hmethods := conflictAt_map (Hierarchy.isSubsignature_relabel hr k.hierarchy) own.methods parent.methods
        simp only [overrideErrors, relabel, Option.map_some, Entry.relabel, Ty.relabel, Layout.relabel_eq,
          Classes.relabel, List.filter_map, List.map_map, List.map_append, Function.comp_def, Field.relabel,
          Method.relabel, hfields, hmethods, TypeError.relabel]
        rfl
      | _ => rfl

theorem Class.typeErrors_relabel (k : Classes) (c : Class) :
    (c.relabel r).typeErrors (k.relabel r) = (c.typeErrors k).map (TypeError.relabel r) := by
  rw [typeErrors, typeErrors, overrideErrors_relabel hr, List.map_append, List.map_flatMap]
  refine congrArg (· ++ _) ?_
  rw [show (c.relabel r).methods = c.methods.map (Method.relabel r) from rfl, List.flatMap_map]
  exact congrArg (List.flatMap · c.methods) (funext (Method.typeErrors_relabel hr k))

/-- **The declarations of a program have the same errors.** -/
theorem Program.typeErrors_relabel (k : Classes) (p : Program) :
    (p.relabel r).typeErrors (k.relabel r) = (p.typeErrors k).map (TypeError.relabel r) := by
  rw [typeErrors, typeErrors, classes_relabel, decs_relabel, localTypeErrors_map hr, List.map_append,
    List.flatMap_map, List.map_flatMap]
  exact congrArg (fun f => List.flatMap f p.classes ++ _) (funext (Class.typeErrors_relabel hr k))

theorem Program.classTable_relabel (p : Program) : (p.relabel r).classTable = p.classTable.relabel r := by
  rw [classTable, mainEnv_relabel hr]
  rfl

/-- **The main expression has the same type, or the same error.** -/
theorem Program.mainType_relabel (p : Program) :
    (p.relabel r).mainType = relabelChecked r (Ty.relabel r) p.mainType := by
  rw [mainType, mainType, resolve_relabel hr, classTable_relabel hr, type, type, body_relabel, Expr.type_relabel hr]

end Injective
end FoolLang
