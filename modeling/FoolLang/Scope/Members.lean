import FoolLang.Scope
/-!
# Members — what a class adds to its superclass

A class starts from the virtual table and the layout of its superclass.  A field or method of a new name gets the
next position; one that is inherited keeps its position and takes the new type.  Refused are a name declared twice in
the class, a field that is inherited as a method, and a method that is inherited as a field.
-/
namespace FoolLang

/-- The members of a class while they are being declared. -/
structure Members where
  table : Scope
  layout : Layout
  /-- The names this class has declared so far, refused ones included. -/
  seen : List Ident

inductive Refusal
  | repeated
  | clashes
  deriving DecidableEq

/-- Fields lie below the object pointer. -/
def fieldOffset (position : Nat) : Int := wrapOffset (-(position : Int) - 1)

def fieldPosition (offset : Int) : Nat := (-offset - 1).toNat

/-- Methods lie above the dispatch pointer. -/
def methodOffset (position : Nat) : Int := wrapOffset position

/-- Replaces the element at a position, or adds one at the end. -/
def place {α : Type} (i : Nat) (a : α) (l : List α) : List α := if i < l.length then l.set i a else l ++ [a]

namespace Members

def empty : Members := ⟨[], .empty, []⟩

/-- The offset a field of this name gets. -/
def fieldSlot (s : Members) (x : Ident) : Except Refusal Int :=
  if x ∈ s.seen then .error .repeated
  else
    match s.table.lookup x with
    | none => .ok (fieldOffset s.layout.fields.length)
    | some e => if e.ty.isMethod then .error .clashes else .ok e.offset

/-- The offset a method of this name gets. -/
def methodSlot (s : Members) (x : Ident) : Except Refusal Int :=
  if x ∈ s.seen then .error .repeated
  else
    match s.table.lookup x with
    | none => .ok (methodOffset s.layout.methods.length)
    | some e => if e.ty.isMethod then .ok e.offset else .error .clashes

/-- The position of a field of this name: a new one comes last. -/
def fieldPlace (s : Members) (x : Ident) : Nat :=
  match s.table.lookup x with
  | none => s.layout.fields.length
  | some e => fieldPosition e.offset

/-- The position of a method of this name: a new one comes last. -/
def methodPlace (s : Members) (x : Ident) : Nat :=
  match s.table.lookup x with
  | none => s.layout.methods.length
  | some e => e.offset.toNat

def addField (level : Nat) (s : Members) (f : Field) : Members :=
  match s.fieldSlot f.id with
  | .error _ => { s with seen := f.id :: s.seen }
  | .ok offset =>
    ⟨(f.id, ⟨level, f.ty, offset⟩) :: s.table,
      ⟨place (s.fieldPlace f.id) f.ty s.layout.fields, s.layout.methods⟩, f.id :: s.seen⟩

def addMethod (level : Nat) (s : Members) (m : Method) : Members :=
  match s.methodSlot m.id with
  | .error _ => { s with seen := m.id :: s.seen }
  | .ok offset =>
    ⟨(m.id, ⟨level, .method m.signature, offset⟩) :: s.table,
      ⟨s.layout.fields, place (s.methodPlace m.id) m.signature s.layout.methods⟩, m.id :: s.seen⟩

end Members

namespace Env

/-- The members a class starts from. -/
def inherited (env : Env) (c : Class) : Members :=
  match c.super with
  | none => .empty
  | some s =>
    match env.tables.lookup s with
    | none => .empty
    | some table => ⟨table, (env.layouts.lookup s).getD .empty, []⟩

/-- The members after the fields of a class. -/
def withFields (env : Env) (c : Class) : Members := c.fields.foldl (Members.addField (env.level + 1)) (env.inherited c)

/-- All members of a class. -/
def members (env : Env) (c : Class) : Members :=
  c.methods.foldl (Members.addMethod (env.level + 1)) (env.withFields c)

/-- The entry of the superclass, if it is declared. -/
def superEntry (env : Env) (c : Class) : Option Entry := c.super.bind env.instantiable

/-- Whether the name of a class is taken. -/
def redeclared (env : Env) (c : Class) : Bool := (env.globals.lookup c.id).isSome

/-- The hierarchy after a class. -/
def hierarchyAfter (env : Env) (c : Class) : Hierarchy :=
  match c.super, env.superEntry c with
  | some s, some _ => if env.redeclared c then env.hierarchy else env.hierarchy.declare c.id s
  | _, _ => env.hierarchy

/-- What is visible after a class. -/
def afterClass (env : Env) (c : Class) : Env :=
  let ms := env.members c
  { env.declare c.id (.cls ms.layout) with
    tables := (c.id, ms.table) :: env.tables
    layouts := (c.id, ms.layout) :: env.layouts
    hierarchy := env.hierarchyAfter c }

/-- What is visible to the methods of a class, whose members are a scope of their own. -/
def inClass (env : Env) (c : Class) : Env :=
  let done := env.afterClass c
  { done with scopes := (env.members c).table :: done.scopes, level := env.level + 1 }

end Env
end FoolLang
