import FoolLang.Code.Program
import FoolLang.Proofs.Linking
/-!
# Labels — the labels of generated code

The code of a program defines the branch labels and the routine labels below two counts, each of them once
(`count_define_program`).
-/
namespace FoolLang

/-- One for the `n` branch labels from `k` on and the `g` routine labels from `f` on, zero for all others. -/
def Label.among (k n f g : Nat) : Label → Nat
  | .branch i => if k ≤ i ∧ i < k + n then 1 else 0
  | .routine i => if f ≤ i ∧ i < f + g then 1 else 0

theorem Label.among_le_one (k n f g : Nat) (l : Label) : l.among k n f g ≤ 1 := by
  cases l <;> simp only [among] <;> split <;> omega

theorem Label.among_zero (k f : Nat) (l : Label) : l.among k 0 f 0 = 0 := by
  cases l <;> simp only [among] <;> split <;> omega

/-- Two stretches of labels in a row are one. -/
theorem Label.among_add (k m n f g h : Nat) (l : Label) :
    l.among k m f g + l.among (k + m) n (f + g) h = l.among k (m + n) f (g + h) := by
  cases l <;> simp only [among] <;> split_ifs <;> omega

theorem Label.among_branches (k m n : Nat) (l : Label) :
    l.among k m 0 0 + l.among (k + m) n 0 0 = l.among k (m + n) 0 0 := l.among_add k m n 0 0 0

theorem Label.among_no_routine (k n f : Nat) (l : Label) : l.among k n f 0 = l.among k n 0 0 := by
  cases l with
  | branch i => rfl
  | routine i => simp only [among]; split_ifs <;> omega

theorem Label.among_routine (k n f g : Nat) (l : Label) :
    (if Label.routine f = l then 1 else 0) + l.among k n (f + 1) g = l.among k n f (g + 1) := by
  cases l with
  | branch i => simp only [among, reduceCtorEq, if_false]; omega
  | routine i => simp only [among, Label.routine.injEq]; split_ifs <;> omega

theorem Label.among_pair (k n : Nat) (l : Label) :
    l.among (k + 2) n 0 0 + (if Label.branch k = l then 1 else 0) + (if Label.branch (k + 1) = l then 1 else 0) =
      l.among k (n + 2) 0 0 := by
  cases l <;> simp only [among, Label.branch.injEq, reduceCtorEq, if_false] <;> split_ifs <;> omega

theorem count_define_replicate (l : Label) (n : Nat) (o : Op) :
    (List.replicate n (Line.op o)).count (.define l) = 0 := by
  rw [List.count_replicate]; simp

theorem Use.count_define_load (l : Label) (u : Use) : u.load.count (.define l) = 0 := by
  unfold Use.load
  split <;> simp [Line.frame, Line.loadAt, count_define_replicate]

theorem Use.count_define_invoke (l : Label) (u : Use) : u.invoke.count (.define l) = 0 := by
  unfold Use.invoke
  split
  · rfl
  · split <;> simp [Line.frame, Line.loadAt, Line.shareLink, count_define_replicate]

theorem Use.count_define_dispatch (l : Label) (u : Use) (m : Option Entry) : (u.dispatch m).count (.define l) = 0 := by
  unfold Use.dispatch
  split <;> simp [Line.frame, Line.loadAt, Line.shareLink, count_define_replicate]

theorem count_define_allocate (l : Label) (n : Nat) :
    (List.replicate n Line.allocate).flatten.count (.define l) = 0 := by
  induction n with
  | zero => rfl
  | succ n ih =>
    rw [List.replicate_succ, List.flatten_cons, List.count_append, ih]
    simp [Line.allocate, Line.bumpHeap]

theorem count_define_instantiate (l : Label) (M n : Nat) (e : Option Entry) :
    (instantiate M n e).count (.define l) = 0 := by
  unfold instantiate
  split <;> simp [Line.loadAt, Line.bumpHeap, count_define_allocate]

mutual

/-- **The code of an expression defines its own branch labels, each once.** -/
theorem Expr.count_define (M : Nat) (l : Label) : ∀ (e : Expr) (k : Nat),
    (e.code M k).count (.define l) = l.among k e.labels 0 0
  | .int _ _, k => by simp [Expr.code, Expr.labels, l.among_zero]
  | .bool _ _, k => by simp [Expr.code, Expr.labels, l.among_zero]
  | .null _, k => by simp [Expr.code, Expr.labels, l.among_zero]
  | .binary _ op a b, k => by
    have hab := l.among_branches k a.labels b.labels
    have hab2 := l.among_branches (k + 2) a.labels b.labels
    have hba2 := l.among_branches (k + 2) b.labels a.labels
    have hpair := l.among_pair k (a.labels + b.labels)
    rw [Nat.add_comm b.labels] at hba2
    cases op <;>
      simp only [Expr.code, Expr.labels, Line.truthOf, List.count_append, List.count_cons, List.count_nil,
        a.count_define M l, b.count_define M l, beq_iff_eq, Line.define.injEq, reduceCtorEq, if_false] <;> omega
  | .not _ a, k => by
    have hpair := l.among_pair k a.labels
    simp only [Expr.code, Expr.labels, List.count_append, List.count_cons, List.count_nil, a.count_define M l,
      beq_iff_eq, Line.define.injEq, reduceCtorEq, if_false]
    omega
  | .cond _ c t e, k => by
    have hce := l.among_branches (k + 2) c.labels e.labels
    have hcet := l.among_branches (k + 2) (c.labels + e.labels) t.labels
    have hpair := l.among_pair k (c.labels + t.labels + e.labels)
    rw [show c.labels + e.labels + t.labels = c.labels + t.labels + e.labels by omega, ← Nat.add_assoc] at hcet
    simp only [Expr.code, Expr.labels, List.count_append, List.count_cons, List.count_nil, c.count_define M l,
      t.count_define M l, e.count_define M l, beq_iff_eq, Line.define.injEq, reduceCtorEq, if_false]
    omega
  | .print _ a, k => by simp [Expr.code, Expr.labels, a.count_define M l]
  | .id _ u, k => by simp [Expr.code, Expr.labels, u.count_define_load, l.among_zero]
  | .call _ u args, k => by
    simp [Expr.code, Expr.labels, u.count_define_invoke, count_define_codeBack M l args]
  | .send _ u _ m args, k => by
    simp [Expr.code, Expr.labels, u.count_define_dispatch, count_define_codeBack M l args]
  | .new _ _ e args, k => by
    simp [Expr.code, Expr.labels, count_define_instantiate, count_define_codeAll M l args]

theorem count_define_codeAll (M : Nat) (l : Label) : ∀ (es : List Expr) (k : Nat),
    (codeAll M k es).count (.define l) = l.among k (argLabels es) 0 0
  | [], k => by simp [codeAll, argLabels, l.among_zero]
  | e :: es, k => by
    rw [codeAll, List.count_append, e.count_define M l, count_define_codeAll M l es, l.among_branches]
    rfl

theorem count_define_codeBack (M : Nat) (l : Label) : ∀ (es : List Expr) (k : Nat),
    (codeBack M k es).count (.define l) = l.among k (argLabels es) 0 0
  | [], k => by simp [codeBack, argLabels, l.among_zero]
  | e :: es, k => by
    rw [codeBack, List.count_append, e.count_define M l, count_define_codeBack M l es, l.among_branches,
      Nat.add_comm (argLabels es)]
    rfl

end

theorem count_define_routineCode (l : Label) (n params locals : Nat) (decs body : Code) :
    (routineCode n params locals decs body).count (.define l) =
      (if Label.routine n = l then 1 else 0) + decs.count (.define l) + body.count (.define l) := by
  simp only [routineCode, List.count_append, List.count_cons, List.count_nil, count_define_replicate, beq_iff_eq,
    Line.define.injEq, reduceCtorEq, if_false]
  omega

mutual

/-- **The code of a declaration and that of its routines define the labels of the declaration**, each once. -/
theorem Dec.count_define (M : Nat) (l : Label) : ∀ (d : Dec) (k f : Nat),
    (d.code M k f).count (.define l) + (d.routineCode M k f).count (.define l) = l.among k d.labels f d.routines
  | .var _ _ _ v, k, f => by
    simp only [Dec.code, Dec.routineCode, Dec.labels, Dec.routines, v.count_define M l, List.count_nil,
      l.among_no_routine k _ f, Nat.add_zero]
  | .func _ _ _ ps ls body, k, f => by
    have hls := count_define_locals M l ls k (f + 1)
    have hb := body.count_define M l (k + localLabels ls)
    have hadd := l.among_add k (localLabels ls) body.labels (f + 1) (localRoutines ls) 0
    have hf := l.among_routine k (localLabels ls + body.labels) f (localRoutines ls)
    simp only [l.among_no_routine (k + _) body.labels, Nat.add_zero] at hadd
    simp only [Dec.code, Dec.routineCode, Dec.labels, Dec.routines, List.count_append, count_define_routineCode,
      List.count_cons, List.count_nil, hb, beq_iff_eq, reduceCtorEq, if_false]
    omega

theorem count_define_locals (M : Nat) (l : Label) : ∀ (ds : List Dec) (k f : Nat),
    (localCode M k f ds).count (.define l) + (localRoutineCode M k f ds).count (.define l) =
      l.among k (localLabels ds) f (localRoutines ds)
  | [], k, f => by simp [localCode, localRoutineCode, localLabels, localRoutines, l.among_zero]
  | d :: ds, k, f => by
    have hd := d.count_define M l k f
    have hds := count_define_locals M l ds (k + d.labels) (f + d.routines)
    have hadd := l.among_add k d.labels (localLabels ds) f d.routines (localRoutines ds)
    simp only [localCode, localRoutineCode, localLabels, localRoutines, List.count_append]
    omega

end

theorem Method.count_define (M : Nat) (l : Label) (m : Method) (k f : Nat) :
    (m.routineCode M k f).count (.define l) = l.among k m.labels f m.routines := by
  have h := Dec.count_define M l (.func m.line m.id m.ret m.params m.locals m.body) k f
  simpa [Dec.code, Dec.routineCode, Method.routineCode, Dec.labels, Method.labels, Dec.routines, Method.routines,
    List.count_cons] using h

theorem count_define_methods (M : Nat) (l : Label) : ∀ (ms : List Method) (k f : Nat),
    (methodRoutineCode M k f ms).count (.define l) = l.among k (methodLabels ms) f (methodRoutines ms)
  | [], k, f => by simp [methodRoutineCode, methodLabels, methodRoutines, l.among_zero]
  | m :: ms, k, f => by
    rw [methodRoutineCode, List.count_append, m.count_define, count_define_methods M l ms, l.among_add]
    rfl

theorem count_define_classRoutineCode (M : Nat) (l : Label) : ∀ (cs : List Class) (k f : Nat),
    (classRoutineCode M k f cs).count (.define l) = l.among k (classLabels cs) f (classRoutines cs)
  | [], k, f => by simp [classRoutineCode, classLabels, classRoutines, l.among_zero]
  | c :: cs, k, f => by
    rw [classRoutineCode, List.count_append, count_define_methods, count_define_classRoutineCode M l cs]
    exact l.among_add k c.labels (classLabels cs) f c.routines (classRoutines cs)

theorem count_define_tableCode (l : Label) (table : List Label) : (Class.tableCode table).count (.define l) = 0 := by
  induction table with
  | nil => simp [Class.tableCode]
  | cons t table ih =>
    simp only [Class.tableCode, List.flatMap_cons, List.count_cons, List.count_append] at ih ⊢
    simp [Line.allocate, Line.bumpHeap] at ih ⊢
    exact ih

theorem count_define_classCode (l : Label) : ∀ (cs : List Class) (tables : Tables) (f : Nat),
    (classCode tables f cs).count (.define l) = 0
  | [], _, _ => rfl
  | c :: cs, tables, f => by
    rw [classCode, List.count_append, count_define_tableCode, count_define_classCode l cs]

namespace Program

def labels : Program → Nat
  | .letIn cs ds body => classLabels cs + localLabels ds + body.labels
  | .expr body => body.labels

def routines : Program → Nat
  | .letIn cs ds _ => classRoutines cs + localRoutines ds
  | .expr _ => 0

end Program

/-- **The code of a program defines the labels below its counts, each once.** -/
theorem count_define_program (M : Nat) (l : Label) (p : Program) :
    (p.code M).count (.define l) = l.among 0 p.labels 0 p.routines := by
  cases p with
  | expr body => simp [Program.code, Program.labels, Program.routines, body.count_define M l]
  | letIn cs ds body =>
    have hcs := count_define_classRoutineCode M l cs 0 0
    have hds := count_define_locals M l ds (classLabels cs) (classRoutines cs)
    have hb := body.count_define M l (classLabels cs + localLabels ds)
    have h1 := l.among_add 0 (classLabels cs) (localLabels ds) 0 (classRoutines cs) (localRoutines ds)
    have h2 := l.among_add 0 (classLabels cs + localLabels ds) body.labels 0 (classRoutines cs + localRoutines ds) 0
    rw [l.among_no_routine _ body.labels] at h2
    simp only [Nat.zero_add, Nat.add_zero] at h1 h2
    simp only [Program.code, Program.labels, Program.routines, List.count_append, List.count_cons, List.count_nil,
      count_define_classCode, beq_iff_eq, reduceCtorEq, if_false, hcs, hb]
    omega

end FoolLang
