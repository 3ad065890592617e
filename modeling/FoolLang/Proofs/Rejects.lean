import FoolLang.Proofs.Generate
/-!
# Rejects — when the front end refuses a program

A program is refused when a name is wrong, when a declaration has a type error or when its main expression has no type.
The want of an entry is never the reason that is given: where something cannot be checked, in whatever part of a
program, a name is wrong (`rejected_iff`).
-/
namespace FoolLang

/-! ## No error is a missing entry -/

theorem reported_ne_incomplete {x : Except TypeError Unit} : .incomplete ∉ reported x := by
  cases x with
  | ok u => exact List.not_mem_nil
  | error e => cases e <;> simp [reported]

theorem not_mem_append_of {α : Type} {a : α} {l m : List α} (hl : a ∉ l) (hm : a ∉ m) : a ∉ l ++ m := fun h =>
  (List.mem_append.1 h).elim hl hm

section

variable {k : Classes}

mutual

theorem Dec.typeErrors_ne_incomplete : ∀ d : Dec, .incomplete ∉ d.typeErrors k
  | .var _ _ _ _ => reported_ne_incomplete
  | .func _ _ _ _ ls _ => not_mem_append_of (localTypeErrors_ne_incomplete ls) reported_ne_incomplete

theorem localTypeErrors_ne_incomplete : ∀ ds : List Dec, .incomplete ∉ localTypeErrors k ds
  | [] => List.not_mem_nil
  | d :: ds => not_mem_append_of d.typeErrors_ne_incomplete (localTypeErrors_ne_incomplete ds)

end

theorem Class.overrideErrors_ne_incomplete (c : Class) : .incomplete ∉ c.overrideErrors k := by
  unfold overrideErrors
  split
  · exact not_mem_append_of (by simp) (by simp)
  · exact List.not_mem_nil

theorem Class.typeErrors_ne_incomplete (c : Class) : .incomplete ∉ c.typeErrors k := by
  refine not_mem_append_of (fun h => ?_) c.overrideErrors_ne_incomplete
  obtain ⟨m, -, hm⟩ := List.mem_flatMap.1 h
  exact not_mem_append_of (localTypeErrors_ne_incomplete m.locals) reported_ne_incomplete hm

theorem Program.typeErrors_ne_incomplete (p : Program) : .incomplete ∉ p.typeErrors k := by
  refine not_mem_append_of (fun h => ?_) (localTypeErrors_ne_incomplete p.decs)
  obtain ⟨c, -, hc⟩ := List.mem_flatMap.1 h
  exact c.typeErrors_ne_incomplete hc

end

/-! ## The errors of a program -/

namespace Program

variable {p : Program}

/-- What is wrong with the main expression beyond the entries it lacks. -/
def mainErrors (p : Program) : List TypeError := reported (p.mainType.map fun _ => ())

/-- **A check is only left undone in a program with a wrong name.** -/
theorem nameErrors_ne_nil_of_incomplete {n : Expr} (hn : n ∈ p.resolve.nodes)
    (h : n.type p.classTable = .error .incomplete) : p.nameErrors ≠ [] := fun hnames =>
  type_ne_incomplete (resolve_checkable (k := p.classTable) (fun _ => lookup_layouts) hnames) hn h

theorem nameErrors_ne_nil_of_mainType (h : p.mainType = .error .incomplete) : p.nameErrors ≠ [] :=
  nameErrors_ne_nil_of_incomplete (List.mem_append_right _ p.resolve.body.mem_nodes) h

theorem diagnostics_eq (p : Program) :
    p.diagnostics = p.nameErrors.map .name ++ (p.resolve.typeErrors p.classTable ++ p.mainErrors).map .type := by
  rw [List.map_append, ← List.append_assoc]
  unfold diagnostics mainErrors
  cases h : p.mainType with
  | ok ty => exact (List.append_nil _).symm
  | error e =>
    cases e with
    | incomplete =>
      have hne : p.declarationErrors ≠ [] := fun hnil =>
        nameErrors_ne_nil_of_mainType h (List.map_eq_nil_iff.1 (List.append_eq_nil_iff.1 hnil).1)
      simp only [if_neg hne]
      exact (List.append_nil _).symm
    | _ => rfl

theorem diagnostics_ne_nil_iff : p.diagnostics ≠ [] ↔
    p.nameErrors ≠ [] ∨ p.resolve.typeErrors p.classTable ≠ [] ∨ ∃ e, p.mainType = .error e := by
  have hmain : p.nameErrors = [] → (p.mainErrors = [] ↔ ¬ ∃ e, p.mainType = .error e) := fun hn => by
    unfold mainErrors
    cases h : p.mainType with
    | ok ty => simp [Except.map, reported]
    | error e =>
      cases e with
      | incomplete => exact absurd hn (nameErrors_ne_nil_of_mainType h)
      | _ => simp [Except.map, reported]
  rw [diagnostics_eq]
  simp only [ne_eq, List.append_eq_nil_iff, List.map_eq_nil_iff]
  by_cases hn : p.nameErrors = []
  · simp only [hmain hn, hn, true_and, not_and_or, not_not, not_true, false_or]
  · simp [hn]

theorem incomplete_not_mem_diagnostics (p : Program) : .type .incomplete ∉ p.diagnostics := by
  rw [diagnostics_eq]
  refine not_mem_append_of (by simp) fun h => ?_
  obtain ⟨e, he, heq⟩ := List.mem_map.1 h
  cases heq
  exact not_mem_append_of p.resolve.typeErrors_ne_incomplete reported_ne_incomplete he

/-- **A program is refused with its errors**, if there are any. -/
theorem compile_error_iff {memory : Nat} {errors : List Diagnostic} :
    p.compile memory = .error (.frontEnd errors) ↔ errors = p.diagnostics ∧ p.diagnostics ≠ [] := by
  unfold compile
  split
  · rename_i ty hd ht
    rw [generate_of_diagnostics hd]
    simp only [hd, ne_eq, not_true, and_false, iff_false]
    exact fun h => nomatch h
  · rename_i errors' ty hne
    have hd : p.diagnostics ≠ [] := fun hnil => by
      cases h : p.mainType with
      | ok ty => exact hne ty hnil h
      | error e => exact diagnostics_ne_nil_iff.2 (.inr (.inr ⟨e, h⟩)) hnil
    simp [hd, eq_comm]

theorem compile_ok_iff {memory : Nat} {c : Compilation} : p.compile memory = .ok c ↔
    p.diagnostics = [] ∧ p.mainType = .ok c.type ∧ c.program = p.resolve ∧ c.code = p.resolve.code memory := by
  rcases p.compile_cases memory with ⟨ty, hd, hty, hc⟩ | ⟨errors, herr⟩
  · rw [hc, hd, hty]
    obtain ⟨program, type, code⟩ := c
    simp only [Except.ok.injEq, Compilation.mk.injEq, true_and]
    exact ⟨fun ⟨h1, h2, h3⟩ => ⟨h2, h1.symm, h3.symm⟩, fun ⟨h1, h2, h3⟩ => ⟨h2.symm, h1, h3.symm⟩⟩
  · have hne := (compile_error_iff.1 herr).2
    simp [herr, hne]

theorem exists_compile_iff {memory : Nat} : (∃ c, p.compile memory = .ok c) ↔ p.diagnostics = [] := by
  rcases p.compile_cases memory with ⟨ty, hd, hty, hc⟩ | ⟨errors, herr⟩
  · simp [hc, hd]
  · simp [herr, (compile_error_iff.1 herr).2]

end Program

/-- **A refusal is well founded.**  A source that parses is refused by the front end exactly when a name is wrong, a
declaration has a type error or the main expression has no type.  The errors are then those of the names, of the
declarations and at most one of the main expression, in this order, and none of them is a missing entry: what cannot be
checked for the want of one, anywhere in the program, is matched by a wrong name. -/
theorem rejected_iff {source : List Char} {p : Program} (hp : parse source = .ok p) (memory : Nat) :
    ((∃ errors, compile source memory = .error (.frontEnd errors)) ↔
      p.nameErrors ≠ [] ∨ p.resolve.typeErrors p.classTable ≠ [] ∨ ∃ e, p.mainType = .error e) ∧
    (∀ errors, compile source memory = .error (.frontEnd errors) → errors ≠ [] ∧
      errors = p.nameErrors.map .name ++ (p.resolve.typeErrors p.classTable ++ p.mainErrors).map .type ∧
      p.mainErrors.length ≤ 1 ∧ .type .incomplete ∉ errors) ∧
    ∀ n ∈ p.resolve.nodes, n.type p.classTable = .error .incomplete → p.nameErrors ≠ [] := by
  have hcompile : compile source memory = p.compile memory := by
    rw [compile, hp]
    rfl
  rw [hcompile]
  refine ⟨?_, fun errors h => ?_, fun n hn h => Program.nameErrors_ne_nil_of_incomplete hn h⟩
  · simp only [Program.compile_error_iff, exists_eq_left, Program.diagnostics_ne_nil_iff]
  · obtain ⟨rfl, hne⟩ := Program.compile_error_iff.1 h
    refine ⟨hne, p.diagnostics_eq, ?_, p.incomplete_not_mem_diagnostics⟩
    unfold Program.mainErrors reported
    split <;> simp

/-- A source whose main expression cannot be checked. -/
def straySource : List Char := "let var x: bool := 1;\nin y == 1;".toList

theorem straySource_rejected : ∃ p, parse straySource = .ok p ∧ p.mainType = .error .incomplete ∧
    compile straySource 100 =
      .error (.frontEnd [.name (.notDeclared .value ⟨"y".toList⟩ 2), .type (.wrongValue ⟨"x".toList⟩ 1)]) := by
  have hparsed : (parse straySource).toOption.any (fun p =>
      decide (p.nameErrors = [.notDeclared .value ⟨"y".toList⟩ 2]) &&
      decide (p.resolve.typeErrors p.classTable = [.wrongValue ⟨"x".toList⟩ 1]) &&
      match p.mainType with
      | .error e => decide (e = .incomplete)
      | .ok _ => false) = true := by decide +kernel
  obtain ⟨p, hp, hall⟩ := exists_of_any hparsed
  obtain ⟨⟨hn, ht⟩, hmain⟩ : (p.nameErrors = [.notDeclared .value ⟨"y".toList⟩ 2] ∧
      p.resolve.typeErrors p.classTable = [.wrongValue ⟨"x".toList⟩ 1]) ∧ p.mainType = .error .incomplete := by
    cases hm : p.mainType <;> simp_all
  obtain ⟨hiff, herrors, -⟩ := rejected_iff hp 100
  obtain ⟨errors, he⟩ := hiff.2 (.inl (by simp [hn]))
  refine ⟨p, hp, hmain, ?_⟩
  rw [he, (herrors errors he).2.1, hn, ht, Program.mainErrors, hmain]
  rfl

end FoolLang
