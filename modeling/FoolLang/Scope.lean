import FoolLang.Hierarchy
import FoolLang.Tree
/-!
# Scope — what is visible at a point of a program

Scopes are stacked, innermost first; the last one is the global scope.  A declaration lies at the level of the scope
that holds it, and the declarations of one scope take the offsets -2, -3, … in order, classes included; the
parameters of a routine take 1, 2, ….  Every class declared so far is known by its virtual table, the scope of its
members, and by its layout.
-/
namespace FoolLang

/-- Names and their entries; of two entries for a name the first counts. -/
abbrev Scope := List (Ident × Entry)

structure Env where
  scopes : List Scope
  level : Nat
  /-- The offset the next declaration takes. -/
  next : Int
  /-- Every class of the program, declared already or not. -/
  classNames : List Ident
  /-- The virtual tables of the classes declared so far, the latest first. -/
  tables : List (Ident × Scope)
  layouts : List (Ident × Layout)
  hierarchy : Hierarchy

def Ty.isMethod : Ty → Bool
  | .method _ => true
  | _ => false

namespace Env

/-- The start of a program. -/
def initial (classNames : List Ident) : Env := ⟨[[]], 0, -2, classNames, [], [], .empty⟩

/-- The first entry for a name, from the innermost scope out. -/
def lookup (env : Env) (x : Ident) : Option Entry := env.scopes.findSome? (List.lookup x)

def globals (env : Env) : Scope := (env.scopes.getLast?).getD []

/-- Whether the innermost scope has an entry for a name already. -/
def declaredHere (env : Env) (x : Ident) : Bool :=
  match env.scopes with
  | [] => false
  | s :: _ => (s.lookup x).isSome

/-- Enters a name into the innermost scope. -/
def insert (env : Env) (x : Ident) (e : Entry) : Env :=
  match env.scopes with
  | [] => env
  | s :: ss => { env with scopes := ((x, e) :: s) :: ss }

/-- Declares a variable or function. -/
def declare (env : Env) (x : Ident) (ty : Ty) : Env :=
  { env.insert x ⟨env.level, ty, env.next⟩ with next := wrapOffset (env.next - 1) }

/-- Enters a routine. -/
def enter (env : Env) : Env := { env with scopes := [] :: env.scopes, level := env.level + 1, next := -2 }

/-- Declares parameters, the first of them at `offset`. -/
def bindParams (offset : Int) (env : Env) : List Param → Env
  | [] => env
  | p :: ps => bindParams (wrapOffset (offset + 1)) (env.insert p.id ⟨env.level, p.ty, offset⟩) ps

/-- What is visible after a declaration. -/
def after (env : Env) : Dec → Env
  | .var _ x ty _ => env.declare x ty
  | .func _ x ret params _ _ => env.declare x (.function (signatureOf params ret))

def afterAll (env : Env) (ds : List Dec) : Env := ds.foldl after env

/-- What is visible to the local declarations of a routine. -/
def inRoutine (env : Env) (params : List Param) : Env := env.enter.bindParams 1 params

/-- The class a name may be instantiated as, by its entry. -/
def instantiable (env : Env) (c : Ident) : Option Entry :=
  if (env.tables.lookup c).isSome then env.globals.lookup c else none

end Env

/-- Why a method call has no target. -/
inductive SendError
  | noReceiver
  | notAnObject
  | noMethod (cls : Ident)

/-- The entries of the receiver and the method of a method call. -/
def Env.sendTarget (env : Env) (object method : Ident) : Except SendError (Entry × Entry) :=
  match env.lookup object with
  | none => .error .noReceiver
  | some e =>
    match e.ty with
    | .ref c =>
      match (env.tables.lookup c).bind (List.lookup method) with
      | some m => if m.ty.isMethod then .ok (e, m) else .error (.noMethod c)
      | none => .error (.noMethod c)
    | _ => .error .notAnObject

end FoolLang
