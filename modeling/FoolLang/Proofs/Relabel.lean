import FoolLang.Tree
/-!
# Relabel — other names and other lines

A change of names and of line numbers, carried through types and trees.  It changes nothing else: the shape of a tree,
the numbers in it, levels and offsets stay.  What is done with a program commutes with such a change as far as it looks
at names only to tell them apart and at lines only to pass them on.
-/
namespace FoolLang

/-- A new name for every name and a new number for every line. -/
structure Relabel where
  line : Nat → Nat
  name : Ident → Ident

variable (r : Relabel)

/-! ## Types -/

mutual

def Ty.relabel : Ty → Ty
  | .int => .int
  | .bool => .bool
  | .null => .null
  | .ref c => .ref (r.name c)
  | .function s => .function (s.relabel)
  | .method s => .method (s.relabel)
  | .cls l => .cls (l.relabel)

def Signature.relabel : Signature → Signature
  | ⟨ps, t⟩ => ⟨relabelTypes ps, t.relabel⟩

def Layout.relabel : Layout → Layout
  | ⟨fs, ms⟩ => ⟨relabelTypes fs, relabelSignatures ms⟩

def relabelTypes : List Ty → List Ty
  | [] => []
  | t :: ts => t.relabel :: relabelTypes ts

def relabelSignatures : List Signature → List Signature
  | [] => []
  | s :: ss => s.relabel :: relabelSignatures ss

end

@[simp] theorem relabelTypes_eq : ∀ ts : List Ty, relabelTypes r ts = ts.map (Ty.relabel r)
  | [] => rfl
  | t :: ts => congrArg (t.relabel r :: ·) (relabelTypes_eq ts)

@[simp] theorem relabelSignatures_eq : ∀ ss : List Signature, relabelSignatures r ss = ss.map (Signature.relabel r)
  | [] => rfl
  | s :: ss => congrArg (s.relabel r :: ·) (relabelSignatures_eq ss)

def Entry.relabel (e : Entry) : Entry := ⟨e.level, e.ty.relabel r, e.offset⟩

/-! ## Trees -/

def Use.relabel (u : Use) : Use := ⟨r.name u.id, u.level, u.entry.map (Entry.relabel r)⟩

mutual

def Expr.relabel : Expr → Expr
  | .int l n => .int (r.line l) n
  | .bool l b => .bool (r.line l) b
  | .null l => .null (r.line l)
  | .binary l op a b => .binary (r.line l) op a.relabel b.relabel
  | .not l a => .not (r.line l) a.relabel
  | .cond l c t e => .cond (r.line l) c.relabel t.relabel e.relabel
  | .print l a => .print (r.line l) a.relabel
  | .id l u => .id (r.line l) (u.relabel r)
  | .call l u args => .call (r.line l) (u.relabel r) (relabelArgs args)
  | .send l u m e args =>
    .send (r.line l) (u.relabel r) (r.name m) (e.map (Entry.relabel r)) (relabelArgs args)
  | .new l c e args => .new (r.line l) (r.name c) (e.map (Entry.relabel r)) (relabelArgs args)

def relabelArgs : List Expr → List Expr
  | [] => []
  | e :: es => e.relabel :: relabelArgs es

end

@[simp] theorem relabelArgs_eq : ∀ es : List Expr, relabelArgs r es = es.map (Expr.relabel r)
  | [] => rfl
  | e :: es => congrArg (e.relabel r :: ·) (relabelArgs_eq es)

def Param.relabel (p : Param) : Param := ⟨r.line p.line, r.name p.id, p.ty.relabel r⟩

mutual

def Dec.relabel : Dec → Dec
  | .var l x ty v => .var (r.line l) (r.name x) (ty.relabel r) (v.relabel r)
  | .func l x ret ps ls body =>
    .func (r.line l) (r.name x) (ret.relabel r) (ps.map (Param.relabel r)) (relabelLocals ls) (body.relabel r)

def relabelLocals : List Dec → List Dec
  | [] => []
  | d :: ds => d.relabel :: relabelLocals ds

end

@[simp] theorem relabelLocals_eq : ∀ ds : List Dec, relabelLocals r ds = ds.map (Dec.relabel r)
  | [] => rfl
  | d :: ds => congrArg (d.relabel r :: ·) (relabelLocals_eq ds)

def Field.relabel (f : Field) : Field := ⟨r.line f.line, r.name f.id, f.ty.relabel r, f.offset⟩

def Method.relabel (m : Method) : Method :=
  ⟨r.line m.line, r.name m.id, m.ret.relabel r, m.params.map (Param.relabel r), m.locals.map (Dec.relabel r),
    m.body.relabel r, m.offset⟩

def Class.relabel (c : Class) : Class :=
  ⟨r.line c.line, r.name c.id, c.super.map r.name, c.fields.map (Field.relabel r), c.methods.map (Method.relabel r),
    c.layout.map (Layout.relabel r), c.superEntry.map (Entry.relabel r)⟩

def Program.relabel : Program → Program
  | .letIn cs ds e => .letIn (cs.map (Class.relabel r)) (ds.map (Dec.relabel r)) (e.relabel r)
  | .expr e => .expr (e.relabel r)

end FoolLang
