import FoolLang.Code.Program
import FoolLang.Proofs.RelabelScopes
/-!
# RelabelCode — code does not show names or lines

Labels are numbered by where they stand in a program and members are reached by their offsets.  Names serve only to find
the dispatch table of a superclass, so under names that stay apart the code is the same (`Program.code_relabel`).
-/
namespace FoolLang

variable {r : Relabel}

/-! ## Expressions -/

mutual

theorem Expr.labels_relabel : ∀ e : Expr, (e.relabel r).labels = e.labels
  | .int _ _ | .bool _ _ | .null _ | .id _ _ => rfl
  | .binary _ op a b => by
    cases op <;> simp only [Expr.relabel, Expr.labels, Expr.labels_relabel a, Expr.labels_relabel b]
  | .not _ a | .print _ a => by simp only [Expr.relabel, Expr.labels, Expr.labels_relabel a]
  | .cond _ c t e => by
    simp only [Expr.relabel, Expr.labels, Expr.labels_relabel c, Expr.labels_relabel t, Expr.labels_relabel e]
  | .call _ _ args | .send _ _ _ _ args | .new _ _ _ args => argLabels_relabel args

theorem argLabels_relabel : ∀ es : List Expr, argLabels (relabelArgs r es) = argLabels es
  | [] => rfl
  | e :: es => by rw [relabelArgs, argLabels, argLabels, Expr.labels_relabel e, argLabels_relabel es]

end

theorem Use.load_relabel (u : Use) : (u.relabel r).load = u.load := by
  obtain ⟨x, level, entry⟩ := u
  cases entry <;> rfl

theorem Use.invoke_relabel (u : Use) : (u.relabel r).invoke = u.invoke := by
  obtain ⟨x, level, entry⟩ := u
  cases entry with
  | none => rfl
  | some e => simp [invoke, relabel, Entry.relabel, Line.frame]

theorem Use.dispatch_relabel (u : Use) (method : Option Entry) :
    (u.relabel r).dispatch (method.map (Entry.relabel r)) = u.dispatch method := by
  obtain ⟨x, level, entry⟩ := u
  cases entry <;> cases method <;> rfl

theorem instantiate_relabel (memory n : Nat) (entry : Option Entry) :
    instantiate memory n (entry.map (Entry.relabel r)) = instantiate memory n entry := by
  cases entry <;> rfl

section Code

variable (memory : Nat)

mutual

/-- **The code of an expression shows neither names nor lines.** -/
theorem Expr.code_relabel : ∀ (e : Expr) (k : Nat), (e.relabel r).code memory k = e.code memory k
  | .int _ _, _ | .bool _ _, _ | .null _, _ => rfl
  | .binary _ op a b, _ => by
    cases op <;>
      simp only [Expr.relabel, Expr.code, Expr.code_relabel a, Expr.code_relabel b, Expr.labels_relabel]
  | .not _ a, _ | .print _ a, _ => by simp only [Expr.relabel, Expr.code, Expr.code_relabel a]
  | .cond _ c t e, _ => by
    simp only [Expr.relabel, Expr.code, Expr.code_relabel c, Expr.code_relabel t, Expr.code_relabel e,
      Expr.labels_relabel]
  | .id _ u, _ => Use.load_relabel u
  | .call _ u args, k => by
    simp only [Expr.relabel, Expr.code, codeBack_relabel args k, Use.invoke_relabel]
  | .send _ u _ entry args, k => by
    simp only [Expr.relabel, Expr.code, codeBack_relabel args k, Use.dispatch_relabel]
  | .new _ _ entry args, k => by
    simp only [Expr.relabel, Expr.code, codeAll_relabel args k, instantiate_relabel]
    rw [relabelArgs_eq, List.length_map]

theorem codeAll_relabel : ∀ (es : List Expr) (k : Nat), codeAll memory k (relabelArgs r es) = codeAll memory k es
  | [], _ => rfl
  | e :: es, k => by
    rw [relabelArgs, codeAll, codeAll, Expr.code_relabel e, Expr.labels_relabel, codeAll_relabel es]

theorem codeBack_relabel : ∀ (es : List Expr) (k : Nat), codeBack memory k (relabelArgs r es) = codeBack memory k es
  | [], _ => rfl
  | e :: es, k => by
    rw [relabelArgs, codeBack, codeBack, Expr.code_relabel e, argLabels_relabel, codeBack_relabel es]

end

/-! ## Declarations -/

mutual

theorem Dec.labels_relabel : ∀ d : Dec, (d.relabel r).labels = d.labels
  | .var _ _ _ v => Expr.labels_relabel v
  | .func _ _ _ _ ls body => by
    rw [Dec.relabel, Dec.labels, Dec.labels, localLabels_relabel ls, Expr.labels_relabel]

theorem localLabels_relabel : ∀ ds : List Dec, localLabels (relabelLocals r ds) = localLabels ds
  | [] => rfl
  | d :: ds => by rw [relabelLocals, localLabels, localLabels, Dec.labels_relabel d, localLabels_relabel ds]

end

mutual

theorem Dec.routines_relabel : ∀ d : Dec, (d.relabel r).routines = d.routines
  | .var _ _ _ _ => rfl
  | .func _ _ _ _ ls _ => congrArg (· + 1) (localRoutines_relabel ls)

theorem localRoutines_relabel : ∀ ds : List Dec, localRoutines (relabelLocals r ds) = localRoutines ds
  | [] => rfl
  | d :: ds => by rw [relabelLocals, localRoutines, localRoutines, Dec.routines_relabel d, localRoutines_relabel ds]

end

theorem Dec.code_relabel (d : Dec) (k f : Nat) : (d.relabel r).code memory k f = d.code memory k f := by
  cases d with
  | var _ _ _ v => exact Expr.code_relabel memory v k
  | func => rfl

theorem localCode_relabel (ds : List Dec) (k f : Nat) :
    localCode memory k f (relabelLocals r ds) = localCode memory k f ds := by
  induction ds generalizing k f with
  | nil => rfl
  | cons d ds ih =>
    rw [relabelLocals, localCode, localCode, Dec.code_relabel, Dec.labels_relabel, Dec.routines_relabel, ih]

mutual

theorem Dec.routineCode_relabel : ∀ (d : Dec) (k f : Nat),
    (d.relabel r).routineCode memory k f = d.routineCode memory k f
  | .var _ _ _ _, _, _ => rfl
  | .func _ _ _ ps ls body, k, f => by
    rw [Dec.relabel, Dec.routineCode, Dec.routineCode, localRoutineCode_relabel ls, localCode_relabel,
      localLabels_relabel, Expr.code_relabel, relabelLocals_eq, List.length_map, List.length_map]

theorem localRoutineCode_relabel : ∀ (ds : List Dec) (k f : Nat),
    localRoutineCode memory k f (relabelLocals r ds) = localRoutineCode memory k f ds
  | [], _, _ => rfl
  | d :: ds, k, f => by
    rw [relabelLocals, localRoutineCode, localRoutineCode, Dec.routineCode_relabel d, Dec.labels_relabel,
      Dec.routines_relabel, localRoutineCode_relabel ds]

end

/-! ## Classes -/

theorem Method.labels_relabel (m : Method) : (m.relabel r).labels = m.labels := by
  rw [labels, labels, relabel, ← relabelLocals_eq, localLabels_relabel, Expr.labels_relabel]

theorem Method.routines_relabel (m : Method) : (m.relabel r).routines = m.routines := by
  rw [routines, routines, relabel, ← relabelLocals_eq, localRoutines_relabel]

theorem Method.routineCode_relabel (m : Method) (k f : Nat) :
    (m.relabel r).routineCode memory k f = m.routineCode memory k f := by
  simp only [routineCode, relabel, ← relabelLocals_eq, localRoutineCode_relabel, localCode_relabel,
    localLabels_relabel, Expr.code_relabel, List.length_map]
  rw [relabelLocals_eq, List.length_map]

theorem methodLabels_relabel : ∀ ms : List Method, methodLabels (ms.map (Method.relabel r)) = methodLabels ms
  | [] => rfl
  | m :: ms => by rw [List.map_cons, methodLabels, methodLabels, Method.labels_relabel, methodLabels_relabel ms]

theorem methodRoutines_relabel : ∀ ms : List Method, methodRoutines (ms.map (Method.relabel r)) = methodRoutines ms
  | [] => rfl
  | m :: ms => by rw [List.map_cons, methodRoutines, methodRoutines, Method.routines_relabel, methodRoutines_relabel ms]

theorem methodRoutineCode_relabel : ∀ (ms : List Method) (k f : Nat),
    methodRoutineCode memory k f (ms.map (Method.relabel r)) = methodRoutineCode memory k f ms
  | [], _, _ => rfl
  | m :: ms, k, f => by
    rw [List.map_cons, methodRoutineCode, methodRoutineCode, Method.routineCode_relabel, Method.labels_relabel,
      Method.routines_relabel, methodRoutineCode_relabel ms]

theorem fillTable_relabel : ∀ (ms : List Method) (table : List Label) (f : Nat),
    fillTable table f (ms.map (Method.relabel r)) = fillTable table f ms
  | [], _, _ => rfl
  | m :: ms, table, f => by
    rw [List.map_cons, fillTable, fillTable, Method.routines_relabel, fillTable_relabel ms]
    rfl

theorem classLabels_relabel : ∀ cs : List Class, classLabels (cs.map (Class.relabel r)) = classLabels cs
  | [] => rfl
  | c :: cs => by
    rw [List.map_cons, classLabels, classLabels, classLabels_relabel cs]
    exact congrArg (· + _) (methodLabels_relabel c.methods)

theorem Class.routines_relabel (c : Class) : (c.relabel r).routines = c.routines := methodRoutines_relabel c.methods

theorem classRoutines_relabel : ∀ cs : List Class, classRoutines (cs.map (Class.relabel r)) = classRoutines cs
  | [] => rfl
  | c :: cs => by
    rw [List.map_cons, classRoutines, classRoutines, classRoutines_relabel cs, Class.routines_relabel]

theorem classRoutineCode_relabel : ∀ (cs : List Class) (k f : Nat),
    classRoutineCode memory k f (cs.map (Class.relabel r)) = classRoutineCode memory k f cs
  | [], _, _ => rfl
  | c :: cs, k, f => by
    have hlabels : (c.relabel r).labels = c.labels := methodLabels_relabel c.methods
    rw [List.map_cons, classRoutineCode, classRoutineCode, hlabels, Class.routines_relabel,
      classRoutineCode_relabel cs]
    exact congrArg (· ++ _) (methodRoutineCode_relabel memory c.methods k f)

def Tables.relabel (r : Relabel) (tables : Tables) : Tables := relabelKeys r (fun table => table) tables

variable (hr : Function.Injective r.name)

include hr

theorem dispatchTable_relabel (tables : Tables) (f : Nat) (c : Class) :
    (c.relabel r).dispatchTable (tables.relabel r) f = c.dispatchTable tables f := by
  have hsuper : (c.relabel r).superTable (tables.relabel r) = c.superTable tables := by
    obtain ⟨line, id, super, fields, methods, layout, superEntry⟩ := c
    cases super with
    | none => rfl
    | some s =>
      simp only [Class.superTable, Class.relabel, Option.map_some, Tables.relabel, lookup_relabelKeys hr,
        Option.map_id']
  rw [Class.dispatchTable, Class.dispatchTable, hsuper]
  exact fillTable_relabel c.methods _ f

theorem classCode_relabel : ∀ (cs : List Class) (tables : Tables) (f : Nat),
    classCode (tables.relabel r) f (cs.map (Class.relabel r)) = classCode tables f cs
  | [], _, _ => rfl
  | c :: cs, tables, f => by
    rw [List.map_cons, classCode, classCode, dispatchTable_relabel hr, Class.routines_relabel, ← classCode_relabel cs]
    rfl

/-- **A program has the same code under other names and on other lines.** -/
theorem Program.code_relabel (p : Program) : (p.relabel r).code memory = p.code memory := by
  cases p with
  | letIn cs ds body =>
    have hclasses := classCode_relabel hr cs [] 0
    simp only [relabel, code, classLabels_relabel, classRoutines_relabel, classRoutineCode_relabel,
      ← relabelLocals_eq, localCode_relabel, localRoutineCode_relabel, localLabels_relabel, Expr.code_relabel,
      ← hclasses]
    rfl
  | expr body => simp only [relabel, code, Expr.code_relabel]

end Code
end FoolLang
