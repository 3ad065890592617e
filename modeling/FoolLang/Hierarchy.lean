import FoolLang.Ty
/-!
# Hierarchy — superclasses, subtyping, least common supertypes

A hierarchy gives some classes a superclass; nothing keeps it from being cyclic.  A class and its superclasses are
found by following at most one step more than there are classes with a superclass: after that many the walk has met
every class it will ever meet.

Below each other are: a boolean and an integer, `null` and every reference, a class and its superclasses, and two
routines of the same arity whose returns are below each other in the same direction and whose parameters are in the
other.  Class types are below nothing.
-/
namespace FoolLang

/-- The superclass of each class that has one; a class has one pair at most. -/
structure Hierarchy where
  supers : List (Ident × Ident)

/-- Which of two types is to be the smaller one: the first, going up, or the second. -/
inductive Direction
  | up
  | down
  deriving DecidableEq

def Direction.flip : Direction → Direction
  | .up => .down
  | .down => .up

/-- What is found under a key when the pairs of another one are left out. -/
theorem lookup_filter_ne {α β : Type} [DecidableEq α] {c d : α} (h : d ≠ c) : ∀ l : List (α × β),
    (l.filter (fun p => p.1 ≠ c)).lookup d = l.lookup d
  | [] => rfl
  | (x, y) :: l => by
    have ih := lookup_filter_ne h l
    by_cases hx : x = c
    · subst hx
      have hd : (d == x) = false := by simpa using h
      rw [List.filter_cons_of_neg (by simp), ih, List.lookup_cons, hd]
    · rw [List.filter_cons_of_pos (by simpa using hx), List.lookup_cons, List.lookup_cons, ih]

namespace Hierarchy

def empty : Hierarchy := ⟨[]⟩

def superOf (h : Hierarchy) (c : Ident) : Option Ident := h.supers.lookup c

/-- Gives a class a superclass, in place of the one it had. -/
def declare (h : Hierarchy) (c s : Ident) : Hierarchy := ⟨(c, s) :: h.supers.filter (fun p => p.1 ≠ c)⟩

theorem superOf_declare (h : Hierarchy) (c s d : Ident) :
    (h.declare c s).superOf d = if d = c then some s else h.superOf d := by
  unfold superOf declare
  rw [List.lookup_cons]
  by_cases hd : d = c
  · simp [hd]
  · have hb : (d == c) = false := by simpa using hd
    rw [hb, if_neg hd]
    exact lookup_filter_ne hd h.supers

/-- A class and its superclasses, nearest first, `n` of them at most. -/
def chain (h : Hierarchy) : Nat → Ident → List Ident
  | 0, _ => []
  | n + 1, c =>
    c :: match h.superOf c with
      | some s => chain h n s
      | none => []

/-- A class and its superclasses, nearest first. -/
def ancestors (h : Hierarchy) (c : Ident) : List Ident := h.chain (h.supers.length + 1) c

/-- Subtyping between two types that are not both functions or both methods. -/
def simpleBelow (h : Hierarchy) : Ty → Ty → Bool
  | .bool, .bool | .bool, .int | .int, .int => true
  | .null, .null | .null, .ref _ => true
  | .ref c, .ref d => decide (d ∈ h.ancestors c)
  | _, _ => false

mutual

/-- Whether the first type is below the second, going up, or the second below the first, going down. -/
def compare (h : Hierarchy) (dir : Direction) : Ty → Ty → Bool
  | .function s, .function t => compareSignature h dir s t
  | .method s, .method t => compareSignature h dir s t
  | a, b =>
    match dir with
    | .up => h.simpleBelow a b
    | .down => h.simpleBelow b a

def compareSignature (h : Hierarchy) (dir : Direction) : Signature → Signature → Bool
  | ⟨ps, r⟩, ⟨qs, q⟩ => compare h dir r q && compareAll h dir.flip ps qs

def compareAll (h : Hierarchy) (dir : Direction) : List Ty → List Ty → Bool
  | [], [] => true
  | p :: ps, q :: qs => compare h dir p q && compareAll h dir ps qs
  | _, _ => false

end

/-- `a ≤ b`. -/
def isSubtype (h : Hierarchy) (a b : Ty) : Bool := h.compare .up a b

/-- `s ≤ t` for signatures: covariant in the return, contravariant in the parameters. -/
def isSubsignature (h : Hierarchy) (s t : Signature) : Bool := h.compareSignature .up s t

/-- The least type that two types are below, if there is one. -/
def leastCommon (h : Hierarchy) (a b : Ty) : Option Ty :=
  if h.isSubtype a .int && h.isSubtype b .int then
    match a, b with
    | .bool, .bool => some .bool
    | _, _ => some .int
  else
    match a, b with
    | .null, .null => some .null
    | .null, .ref d => some (.ref d)
    | .ref c, .null => some (.ref c)
    | .ref c, .ref d => ((h.ancestors c).find? fun x => h.isSubtype (.ref d) (.ref x)).map .ref
    | _, _ => none

end Hierarchy
end FoolLang
