import FoolLang.Proofs.Fragments
import FoolLang.Proofs.Levels
import FoolLang.Proofs.Nodes
import FoolLang.Proofs.Values
import FoolLang.Scope.Errors
/-!
# Frames — how a machine holds what a program works on

The scopes visible at a point of a program are frames on the stack, one for each routine, linked from the innermost
out; where a method is, the object it is called on stands between its frame and nothing else.  `Linked` tells so, and
`Linked.find` what a name stands for in it.  Objects and dispatch tables lie on the heap (`Represents`), and the cells
of the classes in the global frame (`Ground`).  What is visible at a point of a method tells how many links there are
from its frame to the object (`Ready.tethered`).
-/
namespace FoolLang

namespace Routine

/-- A routine with the uses in it resolved, declared where `env` is visible. -/
def resolve (env : Env) (r : Routine) : Routine :=
  let inner := env.inRoutine r.params
  ⟨r.params, resolveLocals inner r.locals, r.body.resolve (inner.afterAll r.locals)⟩

def code (memory k f : Nat) (r : Routine) : Code :=
  localRoutineCode memory k (f + 1) r.locals ++ routineCode f r.params.length r.locals.length
    (localCode memory k (f + 1) r.locals) (r.body.code memory (k + localLabels r.locals))

def nodes (r : Routine) : List Expr := localNodes r.locals ++ r.body.nodes

def nameErrors (env : Env) (r : Routine) : List NameError :=
  let inner := env.inRoutine r.params
  env.enter.paramErrors 1 r.params ++ localNameErrors inner r.locals ++ r.body.nameErrors (inner.afterAll r.locals)

/-- A routine is well typed where it is to return this type. -/
structure Typed (k : Classes) (ret : Ty) (r : Routine) : Prop where
  locals : localTypeErrors k r.locals = []
  body : ∃ role x l, reported (r.body.checkBelow k ret (.wrongReturn role x l)) = []

end Routine

/-- The cell that holds a value. -/
def Value.cell (v : Value) : Cell := .const v.word

/-- What is settled about a program before it runs. -/
structure Plan where
  /-- Latest first. -/
  classes : List Class
  types : Classes
  tables : List (Ident × Scope)
  /-- The entries of the classes. -/
  globals : Scope
  slots : Tables
  /-- Where the dispatch tables are on the heap. -/
  bases : List (Ident × Nat)
  /-- The expressions of the resolved program. -/
  nodes : List Expr

/-- What a point of the program knows of the classes is what is settled about them. -/
def Plan.Knows (P : Plan) (env : Env) : Prop :=
  ∀ c T, env.tables.lookup c = some T →
    P.tables.lookup c = some T ∧ ∃ e, env.globals.lookup c = some e ∧ P.globals.lookup c = some e

/-- A routine declared where `env` is visible is right, and its code is part of the host's, at a level if it belongs to
a method. -/
structure Compiled (H : Host) (P : Plan) (env : Env) (r : Routine) (ret : Ty) (f : Nat) (n : Option Nat) : Prop where
  knows : P.Knows env
  names : r.nameErrors env = []
  typed : (r.resolve env).Typed P.types ret
  nodes : ∀ n ∈ (r.resolve env).nodes, n ∈ P.nodes
  code : ∃ k rest, (r.resolve env).code Code.mark k f ++ rest <:+ H.code
  level : H.levels f = n
  inner : ∀ x ∈ localLevels (n.map (· + 1)) (f + 1) (r.resolve env).locals, H.levels x.1 = x.2

/-- The scope of the classes alone. -/
def Scope.OfClasses (S : Scope) : Prop := ∀ x e, S.lookup x = some e → ∃ l, e.ty = .cls l

namespace Host

variable (H : Host) (P : Plan) (s hs : List Cell) (w : World)

/-- The visible scopes as frames that begin at an address: what the names in them are bound to lies in those frames. -/
inductive Linked : List Scope → Nat → Option (Ident × Nat) → List (Ident × Bound) → Cell → Prop
  | global {G : Scope} (a : Cell) : G.OfClasses → Linked [G] 0 none [] a
  | object {T G : Scope} {c : Ident} {a : Nat} {o : Object} : P.tables.lookup c = some T → G.OfClasses →
      w.objects.lookup a = some o → P.types.hierarchy.Below o.cls c → Linked [T, G] 1 (some (c, a)) [] (Cell.ofNat a)
  | enter {scopes : List Scope} {n : Nat} {self : Option (Ident × Nat)} {bs : List (Ident × Bound)}
      {fp link : Cell} : Linked scopes n self bs link → Sees s hs fp link → Linked ([] :: scopes) (n + 1) self bs fp
  | value {S : Scope} {scopes : List Scope} {n : Nat} {self : Option (Ident × Nat)} {bs : List (Ident × Bound)}
      {fp : Cell} {x : Ident} {ty : Ty} {offset : Int} {v : Value} : Linked (S :: scopes) n self bs fp →
      Sees s hs (fp + Cell.ofInt offset) v.cell → v.Has P.types.hierarchy w ty →
      Linked (((x, ⟨n, ty, offset⟩) :: S) :: scopes) n self ((x, .value v) :: bs) fp
  | function {S : Scope} {scopes : List Scope} {n : Nat} {self : Option (Ident × Nat)} {bs : List (Ident × Bound)}
      {fp : Cell} {x : Ident} {offset : Int} {r : Routine} {ret : Ty} {f : Nat} {env : Env} :
      Linked (S :: scopes) n self bs fp →
      Sees s hs (fp + Cell.ofInt offset) (Cell.ofNat (H.code.address (.routine f))) →
      H.code.address (.routine f) ≤ Text.maxInt32 → Compiled H P env r ret f (self.map fun _ => n + 1) → env.scopes =
        ((x, ⟨n, .function (signatureOf r.params ret), offset⟩) :: S) :: scopes → env.level = n →
      Linked (((x, ⟨n, .function (signatureOf r.params ret), offset⟩) :: S) :: scopes) n self ((x, .function r) :: bs)
        fp

inductive Found (n : Nat) (self : Option (Ident × Nat)) (bs : List (Ident × Bound)) (fp : Cell) (x : Ident)
    (e : Entry) : Prop
  | value {v : Value} {visible : List (Ident × Bound)} {base : Cell} : findBound x bs = some (.value v, visible) →
      e.level ≤ n → Hops s hs (n - e.level) fp base → Sees s hs (base + Cell.ofInt e.offset) v.cell →
      v.Has P.types.hierarchy w e.ty → Found n self bs fp x e
  | function {r : Routine} {visible : List (Ident × Bound)} {base : Cell} {env : Env} {ret : Ty} {f : Nat} :
      findBound x bs = some (.function r, visible) → e.level ≤ n → Hops s hs (n - e.level) fp base →
      Sees s hs (base + Cell.ofInt e.offset) (Cell.ofNat (H.code.address (.routine f))) →
      H.code.address (.routine f) ≤ Text.maxInt32 → e.ty = .function (signatureOf r.params ret) →
      Compiled H P env r ret f (self.map fun _ => env.level + 1) →
      H.Linked P s hs w env.scopes env.level self visible base → Found n self bs fp x e
  | member {c : Ident} {a : Nat} {o : Object} {T : Scope} : findBound x bs = none → self = some (c, a) →
      P.tables.lookup c = some T → w.objects.lookup a = some o → P.types.hierarchy.Below o.cls c →
      T.lookup x = some e → 1 ≤ n → Hops s hs (n - 1) fp (Cell.ofNat a) → Found n self bs fp x e
  | cls {l : Layout} : e.ty = .cls l → Found n self bs fp x e

end Host

theorem findSome_lookup_cons (x y : Ident) (e : Entry) (S : Scope) (scopes : List Scope) :
    ((((y, e) :: S) :: scopes).findSome? (List.lookup x)) =
      if x = y then some e else (S :: scopes).findSome? (List.lookup x) := by
  rw [List.findSome?_cons, List.findSome?_cons, List.lookup_cons]
  by_cases h : x = y
  · simp [h]
  · have hb : (x == y) = false := by simpa using h
    simp [hb, h]

theorem findBound_cons (x y : Ident) (b : Bound) (bs : List (Ident × Bound)) :
    findBound x ((y, b) :: bs) = if x = y then some (b, (y, b) :: bs) else findBound x bs := by
  rw [findBound]
  by_cases h : x = y
  · simp [h]
  · simp [h, Ne.symm h]

namespace Host

variable {H : Host} {P : Plan} {s s' hs hs' : List Cell} {w w' : World}

theorem Linked.later {scopes : List Scope} {n : Nat} {self : Option (Ident × Nat)} {bs : List (Ident × Bound)}
    {fp : Cell} (h : H.Linked P s hs w scopes n self bs fp) (hst : s <:+ s') (hh : hs <+: hs') (hw : w.Grows w') :
    H.Linked P s' hs' w' scopes n self bs fp := by
  induction h with
  | global a hG => exact .global a hG
  | object hT hG ho hb => exact .object hT hG (hw _ _ ho) hb
  | enter _ hl ih => exact .enter ih (hl.later hst hh)
  | value _ hv ht ih => exact .value ih (hv.later hst hh) (ht.grows hw)
  | function _ hv hn hc hs hl ih => exact .function ih (hv.later hst hh) hn hc hs hl

/-- What is found behind a link is found one hop further. -/
theorem Found.enter {n : Nat} {self : Option (Ident × Nat)} {bs : List (Ident × Bound)} {fp link : Cell} {x : Ident}
    {e : Entry} (h : H.Found P s hs w n self bs link x e) (hl : Sees s hs fp link) :
    H.Found P s hs w (n + 1) self bs fp x e := by
  cases h with
  | value hb hn hh hv ht =>
    refine .value hb (Nat.le_succ_of_le hn) ?_ hv ht
    rw [Nat.succ_sub hn]
    exact ⟨link, hl, hh⟩
  | function hb hn hh hv hnear ht hc hL =>
    refine .function hb (Nat.le_succ_of_le hn) ?_ hv hnear ht hc hL
    rw [Nat.succ_sub hn]
    exact ⟨link, hl, hh⟩
  | member hb hself hT ho hbel hx hn hh =>
    refine .member hb hself hT ho hbel hx (Nat.le_succ_of_le hn) ?_
    rw [Nat.succ_sub hn]
    exact ⟨link, hl, hh⟩
  | cls ht => exact .cls ht

theorem Found.skip {n : Nat} {self : Option (Ident × Nat)} {bs : List (Ident × Bound)} {fp : Cell} {x y : Ident}
    {e : Entry} {b : Bound} (h : H.Found P s hs w n self bs fp x e) (hxy : x ≠ y) :
    H.Found P s hs w n self ((y, b) :: bs) fp x e := by
  have hskip : findBound x ((y, b) :: bs) = findBound x bs := by rw [findBound_cons, if_neg hxy]
  cases h with
  | value hb hn hh hv ht => exact .value (hskip.trans hb) hn hh hv ht
  | function hb hn hh hv hnear ht hc hL => exact .function (hskip.trans hb) hn hh hv hnear ht hc hL
  | member hb hself hT ho hbel hx hn hh => exact .member (hskip.trans hb) hself hT ho hbel hx hn hh
  | cls ht => exact .cls ht

/-- **A declared name stands for a binding in a frame, a member of the object, or a class.** -/
theorem Linked.find {scopes : List Scope} {n : Nat} {self : Option (Ident × Nat)} {bs : List (Ident × Bound)}
    {fp : Cell} (h : H.Linked P s hs w scopes n self bs fp) {x : Ident} {e : Entry}
    (hx : scopes.findSome? (List.lookup x) = some e) : H.Found P s hs w n self bs fp x e := by
  induction h with
  | @global G a hG =>
    rw [List.findSome?_singleton] at hx
    obtain ⟨l, hl⟩ := hG x e hx
    exact .cls hl
  | @object T G c a o hT hG ho hb =>
    rw [List.findSome?_cons] at hx
    cases hTx : T.lookup x with
    | some e' =>
      rw [hTx] at hx
      cases hx
      exact .member rfl rfl hT ho hb hTx (Nat.le_refl 1) rfl
    | none =>
      rw [hTx, List.findSome?_singleton] at hx
      obtain ⟨l, hl⟩ := hG x e hx
      exact .cls hl
  | enter _ hl ih =>
    rw [List.findSome?_cons, List.lookup_nil] at hx
    exact (ih hx).enter hl
  | @value S scopes n self bs fp y ty offset v _ hv ht ih =>
    rw [findSome_lookup_cons] at hx
    by_cases hxy : x = y
    · rw [if_pos hxy] at hx
      cases hx
      exact .value (by rw [findBound_cons, if_pos hxy]) (Nat.le_refl n) (by rw [Nat.sub_self]; rfl) hv ht
    · rw [if_neg hxy] at hx
      exact (ih hx).skip hxy
  | @function S scopes n self bs fp y offset r ret f env hL hv hnear hc hs hl ih =>
    rw [findSome_lookup_cons] at hx
    by_cases hxy : x = y
    · rw [if_pos hxy] at hx
      cases hx
      have hn : n - n = 0 := Nat.sub_self n
      refine .function (by rw [findBound_cons, if_pos hxy]) (Nat.le_refl n) (by rw [hn]; rfl) hv hnear rfl
        (hl.symm ▸ hc) ?_
      rw [hs, hl]
      exact .function hL hv hnear hc hs hl
    · rw [if_neg hxy] at hx
      exact (ih hx).skip hxy

/-! ## The heap -/

/-- The global frame, which begins at the end of the memory, holds the addresses of the dispatch tables. -/
def Ground (P : Plan) (s hs : List Cell) : Prop :=
  ∀ c e, P.globals.lookup c = some e → ∃ base, P.bases.lookup c = some base ∧
    Sees s hs (Cell.fromEnd 0 + Cell.ofInt e.offset) (Cell.ofNat base)

variable (H P)

/-- An object created by an instantiation of its class: the machine got to the last line of the code of one, which moves
the end of the heap past the address of the object and leaves the address on the stack. -/
def Born (cls : Ident) (a : Nat) : Prop :=
  ∃ l e args k rest s hs fp ra tm out, Expr.new l cls (some e) args ∈ P.nodes ∧
    (∀ n ∈ (Expr.new l cls (some e) args).nodes, n.OffsetsFit) ∧
    (Expr.new l cls (some e) args).code Code.mark k ++ rest <:+ H.code ∧
      H.At (.op .shp :: rest) (Cell.ofNat (a + 1) :: Cell.ofNat a :: s) hs a fp ra tm out

/-- An object lies on the heap: its fields below its address, the first of them nearest, and a pointer to the dispatch
table at its address. -/
structure Placed (w : World) (hs : List Cell) (a : Nat) (o : Object) : Prop where
  known : (P.tables.lookup o.cls).isSome
  dispatch : ∃ base, P.bases.lookup o.cls = some base ∧ hs[a]? = some (Cell.ofNat base)
  fields : ∃ vs, o.fields = (fieldNames P.classes o.cls).zip vs ∧ vs.length = (fieldNames P.classes o.cls).length ∧
    (∀ i v, vs[i]? = some v → i < a ∧ hs[a - (i + 1)]? = some v.cell) ∧
    ∀ l, P.types.layouts.lookup o.cls = some l → List.Forall₂ (fun v t => v.Has P.types.hierarchy w t) vs l.fields
  born : H.Born P o.cls a

/-- The heap holds the objects of a world and the dispatch tables. -/
structure Represents (w : World) (hs : List Cell) : Prop where
  free : w.free = hs.length
  fresh : ∀ a o, w.objects.lookup a = some o → a < w.free
  objects : ∀ a o, w.objects.lookup a = some o → H.Placed P w hs a o
  tables : ∀ c table base, P.slots.lookup c = some table → P.bases.lookup c = some base → ∀ j l, table[j]? = some l →
    hs[base + j]? = some (Cell.ofNat (H.code.address l)) ∧ H.code.address l ≤ Text.maxInt32

/-- A machine holds what is visible at a point of a program, in frames that begin at `fp`. -/
structure Ready (env : Env) (ctx : Context) (w : World) (s hs : List Cell) (fp : Cell) : Prop where
  knows : P.Knows env
  linked : H.Linked P s hs w env.scopes env.level ctx.self ctx.bindings fp
  heap : H.Represents P w hs
  ground : Ground P s hs

/-- Lines are left, and they belong to a routine at the level of what is visible if an object is held, and to none of a
method if not. -/
structure Stands (env : Env) (ctx : Context) (rest : Code) : Prop where
  more : 0 < rest.size
  level : H.levelAt rest = ctx.self.map fun _ => env.level

variable {H P}

theorem Ground.later (h : Ground P s hs) (hst : s <:+ s') (hh : hs <+: hs') : Ground P s' hs' := fun c e he => by
  obtain ⟨base, hb, hv⟩ := h c e he
  exact ⟨base, hb, hv.later hst hh⟩

/-- **What a machine holds stays** while the stack is only pushed on and the heap grows. -/
theorem Ready.later {env : Env} {ctx : Context} {fp : Cell} (h : H.Ready P env ctx w s hs fp) (hst : s <:+ s')
    (hh : hs <+: hs') (hw : w.Grows w') (hr : H.Represents P w' hs') : H.Ready P env ctx w' s' hs' fp :=
  ⟨h.knows, h.linked.later hst hh hw, hr, h.ground.later hst hh⟩

theorem Placed.later {a : Nat} {o : Object} (h : H.Placed P w hs a o) (hh : hs <+: hs') (hw : w.Grows w') :
    H.Placed P w' hs' a o := by
  obtain ⟨base, hb, hd⟩ := h.dispatch
  obtain ⟨vs, hf, hl, hcells, ht⟩ := h.fields
  refine ⟨h.known, ⟨base, hb, getElem?_of_isPrefix hh hd⟩, ⟨vs, hf, hl, fun i v hi => ?_, fun l hl => ?_⟩, h.born⟩
  · obtain ⟨hia, hcell⟩ := hcells i v hi
    exact ⟨hia, getElem?_of_isPrefix hh hcell⟩
  · exact (ht l hl).imp fun _ _ hv => hv.grows hw

/-! ## The links of a method -/

/-- Lines at which no routine starts belong to the routine of the lines that follow. -/
theorem Stands.append {env : Env} {ctx : Context} {c rest : Code} (h : H.Stands env ctx rest)
    (hcode : c ++ rest <:+ H.code) (hc : ∀ line ∈ c, line.routine? = none) : H.Stands env ctx (c ++ rest) := by
  refine ⟨?_, (levelAt_append hcode hc).trans h.level⟩
  have hmore := h.more
  rw [Code.size_append]
  omega

theorem Stands.after {env : Env} {ctx : Context} {c rest : Code} (h : H.Stands env ctx (c ++ rest))
    (hcode : c ++ rest <:+ H.code) (hc : ∀ line ∈ c, line.routine? = none) (h0 : 0 < rest.size) :
    H.Stands env ctx rest := ⟨h0, (levelAt_append hcode hc).symm.trans h.level⟩

theorem Stands.cons {env : Env} {ctx : Context} {line : Line} {rest : Code} (h : H.Stands env ctx rest)
    (hcode : line :: rest <:+ H.code) (hline : line.routine? = none) : H.Stands env ctx (line :: rest) :=
  h.append (c := [line]) hcode (List.forall_mem_singleton.2 hline)

/-- After the label of a routine its lines stand at its level. -/
theorem Stands.entered {env : Env} {ctx : Context} {f : Nat} {c rest : Code} (h0 : 0 < rest.size)
    (hcode : .define (.routine f) :: (c ++ rest) <:+ H.code) (hc : ∀ line ∈ c, line.routine? = none)
    (hlevel : H.levels f = ctx.self.map fun _ => env.level) : H.Stands env ctx rest :=
  ⟨h0, (levelAt_append (suffix_of_cons hcode) hc).symm.trans ((levelAt_define hcode).trans hlevel)⟩

theorem Stands.expr {env : Env} {ctx : Context} {e : Expr} {k : Nat} {rest : Code} (h : H.Stands env ctx rest)
    (hcode : e.code Code.mark k ++ rest <:+ H.code) : H.Stands env ctx (e.code Code.mark k ++ rest) :=
  h.append hcode (e.inner_code Code.mark k).routine?_eq_none

/-- From a frame of a method, so many links lead to its object as there are levels in between. -/
theorem Linked.hops_self {scopes : List Scope} {n : Nat} {self : Option (Ident × Nat)} {bs : List (Ident × Bound)}
    {fp : Cell} (h : H.Linked P s hs w scopes n self bs fp) {c : Ident} {a : Nat} (hself : self = some (c, a)) :
    (∃ o, w.objects.lookup a = some o) ∧ ∃ d, n = d + 1 ∧ Hops s hs d fp (.ofNat a) := by
  induction h with
  | global => cases hself
  | object _ _ ho =>
    cases hself
    exact ⟨⟨_, ho⟩, 0, rfl, rfl⟩
  | enter _ hlink ih =>
    obtain ⟨ho, d, rfl, hd⟩ := ih hself
    exact ⟨ho, d + 1, rfl, _, hlink, hd⟩
  | value _ _ _ ih | function _ _ _ _ _ _ ih => exact ih hself

/-- **In a method the links lead to the object.** -/
theorem Ready.tethered {env : Env} {ctx : Context} {fp : Cell} {rest : Code} (h : H.Ready P env ctx w s hs fp)
    (hst : H.Stands env ctx rest) : H.Tethered s hs fp rest := by
  intro n hn
  rw [hst.level] at hn
  obtain ⟨⟨c, a⟩, hself, rfl⟩ := Option.map_eq_some_iff.1 hn
  obtain ⟨⟨o, ho⟩, d, hd, hhops⟩ := h.linked.hops_self hself
  exact ⟨a, h.heap.free ▸ h.heap.fresh a o ho, by rw [hd]; exact hhops⟩

end Host
end FoolLang
