import FoolLang.Proofs.Evaluate
import FoolLang.Scope.Members
import Mathlib.Data.List.Forall2
/-!
# Visible — the scoping rules

Which names may be declared and used where, and what each use refers to.  A view is what is visible at a point of a
program; a construct relates its tree to the same tree with every use given its entry, that of the innermost
declaration visible, and the level it stands at.  Names that are declared in one scope are different names.

Nothing here says how scopes are kept while a program is read.
-/
namespace FoolLang

/-- The offset of a declaration after `n` others of its scope. -/
def declOffset (n : Nat) : Int := wrapOffset (-2 - (n : Int))

/-- The offset of a parameter after `n` others. -/
def paramOffset (n : Nat) : Int := wrapOffset ((n : Int) + 1)

def Dec.id : Dec → Ident
  | .var _ x _ _ | .func _ x _ _ _ _ => x

/-! ## Classes -/

def Field.declares (f : Field) : Ident × Entry := (f.id, ⟨1, f.ty, f.offset⟩)

def Method.declares (m : Method) : Ident × Entry := (m.id, ⟨1, .method m.signature, m.offset⟩)

/-- The members that a class declares itself, the latest first. -/
def Class.ownEntries (k : Class) : List (Ident × Entry) :=
  (k.fields.map Field.declares ++ k.methods.map Method.declares).reverse

/-- The members of a class, its own before the inherited ones; the classes are given latest first. -/
def memberEntries : List Class → Ident → List (Ident × Entry)
  | [], _ => []
  | k :: earlier, c =>
    if k.id = c then k.ownEntries ++ k.super.elim [] (memberEntries earlier) else memberEntries earlier c

/-- The classes as declarations of the global scope, which they come first in. -/
def classEntries : List Class → List (Ident × Entry)
  | [] => []
  | k :: earlier => (k.id, ⟨0, .cls (k.layout.getD .empty), declOffset earlier.length⟩) :: classEntries earlier

def layoutOf : List Class → Ident → Layout
  | [], _ => .empty
  | k :: earlier, c => if k.id = c then k.layout.getD .empty else layoutOf earlier c

/-- The types of fields added to others: those of inherited names at the positions of their offsets, new ones last. -/
def placeFields (inherited : List Ident) (ts : List Ty) (fs : List Field) : List Ty :=
  fs.foldl (fun ts f => place (if f.id ∈ inherited then fieldPosition f.offset else ts.length) f.ty ts) ts

def placeMethods (inherited : List Ident) (sigs : List Signature) (ms : List Method) : List Signature :=
  ms.foldl (fun sigs m => place (if m.id ∈ inherited then m.offset.toNat else sigs.length) m.signature sigs) sigs

/-- Fields with the offsets of their numbers among names. -/
def numberFields (names : List Ident) (fs : List Field) : List Field :=
  fs.map fun f => { f with offset := fieldOffset (names.idxOf f.id) }

def numberMethods (names : List Ident) (ms : List Method) : List Method :=
  ms.map fun m => { m with offset := methodOffset (names.idxOf m.id) }

/-- A class after these ones, with what its declaration fixes.  A member is numbered by its name among all names of its
kind, inherited ones first. -/
def Class.laidOut (k : Class) (earlier : List Class) : Class :=
  let parent := k.super.elim .empty (layoutOf earlier)
  let fields := numberFields (fieldNames (k :: earlier) k.id) k.fields
  let methods := numberMethods (methodNames (k :: earlier) k.id) k.methods
  { k with
    fields := fields
    methods := methods
    layout := some
      ⟨placeFields (k.super.elim [] (fieldNames earlier)) parent.fields fields,
        placeMethods (k.super.elim [] (methodNames earlier)) parent.methods methods⟩
    superEntry := k.super.bind fun s => (classEntries earlier).lookup s }

/-! ## Views -/

/-- What is visible at a point of a program. -/
structure View where
  /-- Every class of the program, declared already or not. -/
  classNames : List Ident
  /-- The classes declared so far, laid out, the latest first. -/
  classes : List Class
  /-- The other declarations, the innermost first. -/
  names : List (Ident × Entry)
  level : Nat
  /-- How many declarations of the same scope come before. -/
  count : Nat

namespace View

def initial (classNames : List Ident) : View := ⟨classNames, [], [], 0, 0⟩

/-- All declarations in scope, the innermost first. -/
def visible (V : View) : List (Ident × Entry) := V.names ++ classEntries V.classes

/-- A class has been declared. -/
def Declared (V : View) (c : Ident) : Prop := c ∈ V.classes.map Class.id

/-- A class in a type is a class of the program. -/
def Names (V : View) (ty : Ty) : Prop := ∀ c, ty = .ref c → c ∈ V.classNames

def bind (V : View) (x : Ident) (e : Entry) : View := { V with names := (x, e) :: V.names }

/-- What is visible after a variable or function. -/
def declare (V : View) (x : Ident) (ty : Ty) : View :=
  { V.bind x ⟨V.level, ty, declOffset V.count⟩ with count := V.count + 1 }

def enter (V : View) : View := { V with level := V.level + 1, count := 0 }

/-- What is visible after parameters that come after `n` others. -/
def bindParams (n : Nat) (V : View) : List Param → View
  | [] => V
  | p :: ps => bindParams (n + 1) (V.bind p.id ⟨V.level, p.ty, paramOffset n⟩) ps

/-- What is visible to the local declarations of a routine. -/
def inRoutine (V : View) (params : List Param) : View := V.enter.bindParams 0 params

def after (V : View) : Dec → View
  | .var _ x ty _ => V.declare x ty
  | .func _ x ret params _ _ => V.declare x (.function (signatureOf params ret))

def afterAll (V : View) (ds : List Dec) : View := ds.foldl after V

def afterClass (V : View) (k : Class) : View :=
  { V with classes := k.laidOut V.classes :: V.classes, count := V.count + 1 }

def afterClasses (V : View) (ks : List Class) : View := ks.foldl afterClass V

/-- What is visible to the methods of a class, itself included. -/
def inClass (V : View) (k : Class) : View :=
  { V.afterClass k with names := memberEntries (V.afterClass k).classes k.id ++ V.names, level := V.level + 1 }

end View

/-! ## Expressions -/

mutual

inductive Expr.Scoped (V : View) : Expr → Expr → Prop
  | int (l : Nat) (n : Int32) : Expr.Scoped V (.int l n) (.int l n)
  | bool (l : Nat) (b : Bool) : Expr.Scoped V (.bool l b) (.bool l b)
  | null (l : Nat) : Expr.Scoped V (.null l) (.null l)
  | binary {l : Nat} {op : BinOp} {a a' b b' : Expr} (left : Expr.Scoped V a a') (right : Expr.Scoped V b b') :
    Expr.Scoped V (.binary l op a b) (.binary l op a' b')
  | not {l : Nat} {a a' : Expr} (arg : Expr.Scoped V a a') : Expr.Scoped V (.not l a) (.not l a')
  | cond {l : Nat} {t t' y y' n n' : Expr} (test : Expr.Scoped V t t') (yes : Expr.Scoped V y y')
    (no : Expr.Scoped V n n') : Expr.Scoped V (.cond l t y n) (.cond l t' y' n')
  | print {l : Nat} {a a' : Expr} (arg : Expr.Scoped V a a') : Expr.Scoped V (.print l a) (.print l a')
  | id {l : Nat} {u : Use} {e : Entry} (declared : V.visible.lookup u.id = some e) :
    Expr.Scoped V (.id l u) (.id l ⟨u.id, V.level, some e⟩)
  | call {l : Nat} {u : Use} {e : Entry} {as as' : List Expr} (declared : V.visible.lookup u.id = some e)
    (args : ArgsScoped V as as') : Expr.Scoped V (.call l u as) (.call l ⟨u.id, V.level, some e⟩ as')
  /-- The receiver has a class type, and the class has the method. -/
  | send {l : Nat} {u : Use} {m c : Ident} {e me : Entry} {entry : Option Entry} {as as' : List Expr}
    (object : V.visible.lookup u.id = some e) (type : e.ty = .ref c) (declared : V.Declared c)
    (member : (memberEntries V.classes c).lookup m = some me) (method : me.ty.isMethod = true)
    (args : ArgsScoped V as as') :
    Expr.Scoped V (.send l u m entry as) (.send l ⟨u.id, V.level, some e⟩ m (some me) as')
  | new {l : Nat} {c : Ident} {e : Entry} {entry : Option Entry} {as as' : List Expr}
    (declared : (classEntries V.classes).lookup c = some e) (args : ArgsScoped V as as') :
    Expr.Scoped V (.new l c entry as) (.new l c (some e) as')

inductive ArgsScoped (V : View) : List Expr → List Expr → Prop
  | nil : ArgsScoped V [] []
  | cons {e e' : Expr} {es es' : List Expr} (head : Expr.Scoped V e e') (tail : ArgsScoped V es es') :
    ArgsScoped V (e :: es) (e' :: es')

end

/-! ## Declarations -/

mutual

/-- A variable is visible after its value, a function also inside itself. -/
inductive Dec.Scoped : View → Dec → Dec → Prop
  | var {V : View} {l : Nat} {x : Ident} {ty : Ty} {v v' : Expr} (value : v.Scoped V v') (type : V.Names ty) :
    Dec.Scoped V (.var l x ty v) (.var l x ty v')
  | func {V : View} {l : Nat} {x : Ident} {ret : Ty} {params : List Param} {ds ds' : List Dec} {b b' : Expr}
    (type : V.Names ret)
    (routine : RoutineScoped (V.declare x (.function (signatureOf params ret))) params ds b ds' b') :
    Dec.Scoped V (.func l x ret params ds b) (.func l x ret params ds' b')

inductive LocalsScoped : View → List Dec → List Dec → Prop
  | nil {V : View} : LocalsScoped V [] []
  | cons {V : View} {d d' : Dec} {ds ds' : List Dec} (head : Dec.Scoped V d d')
    (tail : LocalsScoped (V.after d) ds ds') :
    LocalsScoped V (d :: ds) (d' :: ds')

/-- The parameters and the local declarations of a routine are one scope. -/
inductive RoutineScoped : View → List Param → List Dec → Expr → List Dec → Expr → Prop
  | mk {V : View} {params : List Param} {ds ds' : List Dec} {b b' : Expr}
    (distinct : (params.map Param.id ++ ds.map Dec.id).Nodup) (types : ∀ p ∈ params, V.Names p.ty)
    (locals : LocalsScoped (V.inRoutine params) ds ds') (body : b.Scoped ((V.inRoutine params).afterAll ds) b') :
    RoutineScoped V params ds b ds' b'

end

inductive Method.Scoped (V : View) : Method → Method → Prop
  | mk {m : Method} {ds : List Dec} {b : Expr} (routine : RoutineScoped V m.params m.locals m.body ds b) :
    Method.Scoped V m { m with locals := ds, body := b }

/-- What a class may declare: its fields and methods are one scope, and an inherited member is not declared again as one
of the other kind. -/
structure Class.Allowed (k : Class) (V : View) : Prop where
  parent : ∀ s, k.super = some s → V.Declared s
  distinct : (k.fields.map Field.id ++ k.methods.map Method.id).Nodup
  types : ∀ f ∈ k.fields, V.Names f.ty
  returns : ∀ m ∈ k.methods, V.Names m.ret
  fields : ∀ f ∈ k.fields, f.id ∉ k.super.elim [] (methodNames V.classes)
  methods : ∀ m ∈ k.methods, m.id ∉ k.super.elim [] (fieldNames V.classes)

inductive Class.Scoped (V : View) : Class → Class → Prop
  | mk {k : Class} {ms : List Method} (allowed : k.Allowed V)
    (bodies : List.Forall₂ (Method.Scoped (V.inClass k)) (k.laidOut V.classes).methods ms) :
    Class.Scoped V k { k.laidOut V.classes with methods := ms }

inductive ClassesScoped : View → List Class → List Class → Prop
  | nil {V : View} : ClassesScoped V [] []
  | cons {V : View} {k k' : Class} {ks ks' : List Class} (head : k.Scoped V k')
    (tail : ClassesScoped (V.afterClass k) ks ks') : ClassesScoped V (k :: ks) (k' :: ks')

/-- All declarations of a program that are not inside others are one scope. -/
inductive Program.Scoped : Program → Program → Prop
  | letIn {ks ks' : List Class} {ds ds' : List Dec} {b b' : Expr}
    (distinct : (ks.map Class.id ++ ds.map Dec.id).Nodup)
    (classes : ClassesScoped (.initial (ks.map Class.id)) ks ks')
    (decs : LocalsScoped ((View.initial (ks.map Class.id)).afterClasses ks) ds ds')
    (body : b.Scoped (((View.initial (ks.map Class.id)).afterClasses ks).afterAll ds) b') :
    Program.Scoped (.letIn ks ds b) (.letIn ks' ds' b')
  | expr {b b' : Expr} (body : b.Scoped (.initial []) b') : Program.Scoped (.expr b) (.expr b')

end FoolLang
