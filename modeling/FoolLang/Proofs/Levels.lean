import FoolLang.Proofs.Blocks
/-!
# Levels — how deep the routines of methods lie

A method is declared at the level of the members of its class, and each function in it one level further in.  So the
level that a routine of a method is at is told by its number alone (`Program.levelOf_eq`); a function of the program
itself has none.
-/
namespace FoolLang

mutual

/-- The routines of a declaration by number, an outer one before those inside it, each with its level if it belongs to
a method; `level` is that of a function declared here. -/
def Dec.levels (level : Option Nat) (f : Nat) : Dec → List (Nat × Option Nat)
  | .var _ _ _ _ => []
  | .func _ _ _ _ locals _ => (f, level) :: localLevels (level.map (· + 1)) (f + 1) locals

def localLevels (level : Option Nat) (f : Nat) : List Dec → List (Nat × Option Nat)
  | [] => []
  | d :: ds => d.levels level f ++ localLevels level (f + d.routines) ds

end

/-- The routines of a method by number, each with its level; the object is at level 1. -/
def Method.levels (f : Nat) (m : Method) : List (Nat × Option Nat) :=
  (f, some 2) :: localLevels (some 3) (f + 1) m.locals

def methodLevels (f : Nat) : List Method → List (Nat × Option Nat)
  | [] => []
  | m :: ms => m.levels f ++ methodLevels (f + m.routines) ms

def classLevels (f : Nat) : List Class → List (Nat × Option Nat)
  | [] => []
  | c :: cs => methodLevels f c.methods ++ classLevels (f + c.routines) cs

namespace Program

/-- The routines of a program by number, each with its level if it belongs to a method. -/
def levels : Program → List (Nat × Option Nat)
  | .letIn cs ds _ => classLevels 0 cs ++ localLevels none (classRoutines cs) ds
  | .expr _ => []

/-- The level of the routine with this number, if it belongs to a method. -/
def levelOf (p : Program) (n : Nat) : Option Nat := (p.levels.lookup n).join

end Program

/-! ## Numbers -/

mutual

theorem Dec.levels_numbers : ∀ (d : Dec) (level : Option Nat) (f : Nat),
    (d.levels level f).map Prod.fst = List.range' f d.routines
  | .var _ _ _ _, _, _ => rfl
  | .func _ _ _ _ locals _, level, f => by
    rw [Dec.levels, Dec.routines, List.map_cons, localLevels_numbers locals, List.range'_succ]

theorem localLevels_numbers : ∀ (ds : List Dec) (level : Option Nat) (f : Nat),
    (localLevels level f ds).map Prod.fst = List.range' f (localRoutines ds)
  | [], _, _ => rfl
  | d :: ds, level, f => by
    rw [localLevels, localRoutines, List.map_append, d.levels_numbers, localLevels_numbers ds, List.range'_append_1]

end

theorem Method.levels_numbers (m : Method) (f : Nat) : (m.levels f).map Prod.fst = List.range' f m.routines := by
  rw [levels, routines, List.map_cons, localLevels_numbers, List.range'_succ]

theorem methodLevels_numbers : ∀ (ms : List Method) (f : Nat),
    (methodLevels f ms).map Prod.fst = List.range' f (methodRoutines ms)
  | [], _ => rfl
  | m :: ms, f => by
    rw [methodLevels, methodRoutines, List.map_append, m.levels_numbers, methodLevels_numbers ms, List.range'_append_1]

theorem classLevels_numbers : ∀ (cs : List Class) (f : Nat),
    (classLevels f cs).map Prod.fst = List.range' f (classRoutines cs)
  | [], _ => rfl
  | c :: cs, f => by
    rw [classLevels, classRoutines, List.map_append, methodLevels_numbers, classLevels_numbers cs,
      ← List.range'_append_1 (m := c.routines)]
    rfl

namespace Program

theorem levels_numbers : ∀ p : Program, p.levels.map Prod.fst = List.range p.routines
  | .letIn cs ds _ => by
    rw [levels, routines, List.map_append, classLevels_numbers, localLevels_numbers, List.range_eq_range',
      ← List.range'_append_1, Nat.zero_add]
  | .expr _ => rfl

/-- **Each routine has one level**, as each number is that of one routine. -/
theorem levelOf_eq (p : Program) : ∀ x ∈ p.levels, p.levelOf x.1 = x.2 := by
  intro x hx
  obtain ⟨before, after, hsplit⟩ := List.append_of_mem hx
  have hnodup : (p.levels.map Prod.fst).Nodup := p.levels_numbers ▸ List.nodup_range
  rw [hsplit, List.map_append, List.map_cons] at hnodup
  have hother : ∀ y ∈ before, (x.1 != y.1) = true := fun y hy => by
    have hne := (List.nodup_append.1 hnodup).2.2 y.1 (List.mem_map_of_mem hy) x.1 List.mem_cons_self
    simpa using Ne.symm hne
  have hlookup : p.levels.lookup x.1 = some x.2 := List.lookup_eq_some_iff.2 ⟨before, after, hsplit, hother⟩
  rw [levelOf, hlookup]
  rfl

end Program
end FoolLang
