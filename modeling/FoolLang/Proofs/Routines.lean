import FoolLang.Proofs.Simulate
import FoolLang.Proofs.Uses
/-!
# Routines — calls do what the code of routines does

Declarations leave a cell for each of them on the stack (`simulatesDecs`).  A call enters the frame, declares the
locals, evaluates the body and leaves; by induction on the number of calls that may be pending, a bounded call does
what the code does, and where the bound is too small the stack does not fit the memory (`invokes_callWithin`).
-/
namespace FoolLang

/-- Where a plan knows the classes, expressions whose names are all right are checked. -/
theorem Plan.Knows.type_ne_incomplete {P : Plan} {env : Env} (hK : P.Knows env)
    (hL : ∀ c T, P.tables.lookup c = some T → (P.types.layouts.lookup c).isSome) {e : Expr}
    (h : e.nameErrors env = []) : (e.resolve env).type P.types ≠ .error .incomplete := by
  refine Expr.type_ne_incomplete _ (e.resolve_checkable (fun c hsome => ?_) h)
  obtain ⟨T, hT⟩ := Option.isSome_iff_exists.1 hsome
  obtain ⟨hPT, e, he, -⟩ := hK c T hT
  exact ⟨by rw [Env.instantiable, if_pos hsome, he]; rfl, hL c T hPT⟩

theorem Expr.checkBelow_ok {k : Classes} {e : Expr} {ty : Ty} {wrong : TypeError}
    (h : reported (e.checkBelow k ty wrong) = []) (hw : wrong ≠ .incomplete) (hne : e.type k ≠ .error .incomplete) :
    ∃ t, e.type k = .ok t ∧ t.Refines k.hierarchy ty := by
  unfold Expr.checkBelow at h
  cases ht : e.type k with
  | error err =>
    rw [ht] at h
    have herr : err ≠ .incomplete := fun he => hne (by rw [ht, he])
    change reported (.error err) = [] at h
    cases err <;> first | exact absurd rfl herr | cases h
  | ok t =>
    rw [ht] at h
    change reported (if k.hierarchy.isSubtype t ty then .ok () else .error wrong) = [] at h
    by_cases hs : k.hierarchy.isSubtype t ty = true
    · exact ⟨t, rfl, Hierarchy.isSubtype_refines hs⟩
    · rw [if_neg hs] at h
      cases wrong <;> first | exact absurd rfl hw | cases h

/-! ## What is known of the classes -/

theorem Env.scopes_insert {env : Env} {S : Scope} {scopes : List Scope} (h : env.scopes = S :: scopes) (x : Ident)
    (e : Entry) : (env.insert x e).scopes = ((x, e) :: S) :: scopes := by
  rw [insert, h]

theorem Env.scopes_declare {env : Env} {S : Scope} {scopes : List Scope} (h : env.scopes = S :: scopes) (x : Ident)
    (ty : Ty) : (env.declare x ty).scopes = ((x, ⟨env.level, ty, env.next⟩) :: S) :: scopes :=
  scopes_insert h x ⟨env.level, ty, env.next⟩

namespace Plan.Knows

variable {P : Plan} {env : Env}

theorem insert (h : P.Knows env) {x : Ident} (hx : env.declaredHere x = false) (e : Entry) :
    P.Knows (env.insert x e) := by
  intro c T hT
  rw [Env.insert_tables] at hT
  obtain ⟨hP, e', he', hPe⟩ := h c T hT
  refine ⟨hP, e', ?_, hPe⟩
  unfold Env.globals Env.insert at *
  unfold Env.declaredHere at hx
  cases hs : env.scopes with
  | nil =>
    rw [hs] at he'
    cases he'
  | cons S scopes =>
    rw [hs] at he' hx
    cases scopes with
    | nil =>
      have hne : c ≠ x := by
        rintro rfl
        change (S.lookup c).isSome = false at hx
        change S.lookup c = some e' at he'
        rw [he'] at hx
        cases hx
      show ((x, e) :: S).lookup c = some e'
      rw [lookup_cons_of_ne hne]
      exact he'
    | cons S' scopes => simpa [List.getLast?_cons_cons] using he'

theorem declare (h : P.Knows env) {x : Ident} (hx : env.declaredHere x = false) (ty : Ty) :
    P.Knows (env.declare x ty) :=
  h.insert hx _

theorem enter (h : P.Knows env) : P.Knows env.enter := by
  intro c T hT
  obtain ⟨hP, e, he, hPe⟩ := h c T hT
  refine ⟨hP, e, ?_, hPe⟩
  unfold Env.globals Env.enter at *
  cases hs : env.scopes with
  | nil =>
    rw [hs] at he
    cases he
  | cons S scopes =>
    rw [hs] at he
    simpa [List.getLast?_cons_cons] using he

theorem bindParams : ∀ (ps : List Param) {env : Env} {offset : Int}, P.Knows env → env.paramErrors offset ps = [] →
    P.Knows (env.bindParams offset ps)
  | [], _, _, h, _ => h
  | p :: ps, env, offset, h, hn => by
    unfold Env.paramErrors at hn
    obtain ⟨hn, hps⟩ := List.append_eq_nil_iff.1 hn
    obtain ⟨-, hd⟩ := List.append_eq_nil_iff.1 hn
    exact bindParams ps (h.insert (Env.declareErrors_eq_nil.1 hd) _) hps

end Plan.Knows

namespace Host

variable {H : Host} {P : Plan} {call : Call} {d : Nat} {env : Env} {ctx : Context} {w : World} {s hs : List Cell}
  {fp ra tm : Cell} {rest : Code}

theorem ofInt_wrapOffset (n : Int) : Int32.ofInt (wrapOffset n) = Int32.ofInt n := by
  rw [wrapOffset, Int32.ofInt_toInt]

theorem cell_wrapOffset (n : Int) : Cell.ofInt (wrapOffset n) = .ofInt n := congrArg Cell.const (ofInt_wrapOffset n)

/-- The next cell of the stack is where the next declaration is to lie. -/
def NextCell (env : Env) (s : List Cell) (fp : Cell) : Prop :=
  Cell.fromEnd (s.length + 1) = fp + .ofInt env.next

theorem NextCell.declare (h : NextCell env s fp) (x : Ident) (ty : Ty) (v : Cell) :
    NextCell (env.declare x ty) (v :: s) fp := by
  show Cell.fromEnd ((v :: s).length + 1) = fp + Cell.ofInt (wrapOffset (env.next - 1))
  have hnext : Cell.fromEnd ((v :: s).length + 1) = .fromEnd (s.length + 1) + .ofInt (-1) := by
    rw [Cell.fromEnd_add, List.length_cons]
    congr 1
  rw [cell_wrapOffset, hnext, h, Int.sub_eq_add_neg, Cell.ofInt_add, Cell.add_assoc]

theorem NextCell.sees (h : NextCell env s fp) (v : Cell) :
    Sees (v :: s) hs (fp + Cell.ofInt env.next) v := .inr ⟨[], s, rfl, h.symm⟩

theorem Linked.exists_scope {scopes : List Scope} {n : Nat} {self : Option (Ident × Nat)} {bs : List (Ident × Bound)}
    (h : H.Linked P s hs w scopes n self bs fp) : ∃ S ss, scopes = S :: ss := by
  cases h <;> exact ⟨_, _, rfl⟩

theorem Stands.declare (h : H.Stands env ctx rest) (x : Ident) (ty : Ty) (b : Bound) :
    H.Stands (env.declare x ty) (ctx.bind x b) rest := by
  refine ⟨h.more, h.level.trans ?_⟩
  have hlevel : (env.declare x ty).level = env.level := Env.insert_level _ _ _
  rw [hlevel]
  rfl

/-- Declares a variable whose value is on top of the stack. -/
theorem Ready.declare (hr : H.Ready P env ctx w s hs fp) (hnext : NextCell env s fp) {x : Ident}
    (hx : env.declaredHere x = false) {ty : Ty} {v : Value} (hv : v.Has P.types.hierarchy w ty) :
    H.Ready P (env.declare x ty) (ctx.bind x (.value v)) w (v.cell :: s) hs fp := by
  have hpush := hr.push v.cell
  obtain ⟨S, ss, hss⟩ := hr.linked.exists_scope
  refine ⟨hr.knows.declare hx ty, ?_, hr.heap, hpush.ground⟩
  have hl := hpush.linked
  rw [hss] at hl
  have hlevel : (env.declare x ty).level = env.level := Env.insert_level _ _ _
  rw [Env.scopes_declare hss, hlevel]
  exact .value hl (hnext.sees v.cell) hv

/-- Declares a function whose address is on top of the stack. -/
theorem Ready.declareFunction (hr : H.Ready P env ctx w s hs fp) (hnext : NextCell env s fp) {x : Ident}
    (hx : env.declaredHere x = false) {r : Routine} {ret : Ty} {f : Nat}
    (hnear : H.code.address (.routine f) ≤ Text.maxInt32)
    (hc : Compiled H P (env.declare x (.function (signatureOf r.params ret))) r ret f
      (ctx.self.map fun _ => env.level + 1)) :
    H.Ready P (env.declare x (.function (signatureOf r.params ret))) (ctx.bind x (.function r)) w
      (Cell.ofNat (H.code.address (.routine f)) :: s) hs fp := by
  have hpush := hr.push (Cell.ofNat (H.code.address (.routine f)))
  obtain ⟨S, ss, hss⟩ := hr.linked.exists_scope
  refine ⟨hr.knows.declare hx _, ?_, hr.heap, hpush.ground⟩
  have hl := hpush.linked
  rw [hss] at hl
  have hscopes := Env.scopes_declare hss x (.function (signatureOf r.params ret))
  have hlevel : (env.declare x (.function (signatureOf r.params ret))).level = env.level := Env.insert_level _ _ _
  rw [hscopes, hlevel]
  exact .function hl (hnext.sees _) hnear hc hscopes hlevel

/-! ## Declarations -/

/-- What is left after declarations: a cell for each of them, and all of them visible. -/
def Declares (H : Host) (P : Plan) (env : Env) (w : World) (s hs : List Cell) (fp : Cell) (rest : Code) (n : Nat)
    (ctx' : Context) (w' : World) : Prop :=
  ∃ cells hs' ra tm, cells.length = n ∧ hs <+: hs' ∧ w.Grows w' ∧ H.Ready P env ctx' w' (cells ++ s) hs' fp ∧
    H.Stands env ctx' rest ∧ H.At rest (cells ++ s) hs' hs'.length fp ra tm w'.printed

theorem Declares.cons {w₀ : World} {hs₀ : List Cell} {v : Cell} {n : Nat} {ctx' : Context} {w' : World}
    (h : H.Declares P env w (v :: s) hs fp rest n ctx' w') (hw : w₀.Grows w) (hh : hs₀ <+: hs) :
    H.Declares P env w₀ s hs₀ fp rest (n + 1) ctx' w' := by
  obtain ⟨cells, hs', ra, tm, hlen, hh', hw', hr, h0, hat⟩ := h
  have hcells : cells ++ v :: s = (cells ++ [v]) ++ s := by rw [List.append_assoc]; rfl
  rw [hcells] at hr hat
  refine ⟨cells ++ [v], hs', ra, tm, ?_, hh.trans hh', hw.trans hw', hr, h0, hat⟩
  rw [List.length_append, hlen]
  rfl

theorem layouts_of_tables (hP : P.Sound H) (c : Ident) (T : Scope) (hT : P.tables.lookup c = some T) :
    (P.types.layouts.lookup c).isSome := by
  obtain ⟨-, lay, hlay, -⟩ := hP.known c T hT
  exact Option.isSome_iff_exists.2 ⟨lay, hlay⟩

/-- A function without errors is compiled where it is declared, itself visible inside it. -/
theorem compiled_func {l : Nat} {x : Ident} {ret : Ty} {ps : List Param} {locals : List Dec} {body : Expr} {k f : Nat}
    {n : Option Nat} {after : Code} (hK : P.Knows env) (hn : (Dec.func l x ret ps locals body).nameErrors env = [])
    (ht : ((Dec.func l x ret ps locals body).resolve env).typeErrors P.types = [])
    (hnodes : ∀ n ∈ ((Dec.func l x ret ps locals body).resolve env).nodes, n ∈ P.nodes)
    (hcode : ((Dec.func l x ret ps locals body).resolve env).routineCode Code.mark k f ++ after <:+ H.code)
    (hlevels : ∀ r ∈ ((Dec.func l x ret ps locals body).resolve env).levels n f, H.levels r.1 = r.2) :
    env.declaredHere x = false ∧
      Compiled H P (env.declare x (.function (signatureOf ps ret))) ⟨ps, locals, body⟩ ret f n := by
  obtain ⟨hn, hbody⟩ := List.append_eq_nil_iff.1 hn
  obtain ⟨hn, hlocals⟩ := List.append_eq_nil_iff.1 hn
  obtain ⟨hn, hparams⟩ := List.append_eq_nil_iff.1 hn
  obtain ⟨-, hdec⟩ := List.append_eq_nil_iff.1 hn
  obtain ⟨htlocals, htbody⟩ := List.append_eq_nil_iff.1 ht
  obtain ⟨hlevel, hinner⟩ := List.forall_mem_cons.1 hlevels
  have hx := Env.declareErrors_eq_nil.1 hdec
  exact ⟨hx, {
    knows := hK.declare hx _
    names := List.append_eq_nil_iff.2 ⟨List.append_eq_nil_iff.2 ⟨hparams, hlocals⟩, hbody⟩
    typed := ⟨htlocals, .function, x, l, htbody⟩
    nodes := hnodes
    code := ⟨k, after, hcode⟩
    level := hlevel
    inner := hinner }⟩

/-- **The code of declarations does what evaluating them does.**  The induction is on the declarations; each of them
takes the next cell of the stack and the next offset of the frame. -/
theorem simulatesDecs (hP : P.Sound H) (hcall : H.Invokes P call d) (ds : List Dec) : ∀ {env : Env} {ctx : Context}
    {w : World} {s hs : List Cell} {ra tm : Cell} {k f : Nat} {rest after : Code},
    H.Ready P env ctx w s hs fp → NextCell env s fp → localNameErrors env ds = [] →
    localTypeErrors P.types (resolveLocals env ds) = [] → (∀ n ∈ localNodes (resolveLocals env ds), n ∈ P.nodes) →
    localRoutineCode Code.mark k f (resolveLocals env ds) ++ after <:+ H.code →
    (∀ x ∈ localLevels (ctx.self.map fun _ => env.level + 1) f (resolveLocals env ds), H.levels x.1 = x.2) →
    H.memory ≤ d + s.length → H.Stands env ctx rest →
    H.At (localCode Code.mark k f (resolveLocals env ds) ++ rest) s hs hs.length fp ra tm w.printed →
    H.Outcome P (evalDecs P.classes call ctx ds w) (H.Declares P (env.afterAll ds) w s hs fp rest ds.length) := by
  induction ds with
  | nil =>
    intro env ctx w s hs ra tm k f rest after hr _ _ _ _ _ _ _ h0 hat
    exact ⟨[], hs, ra, tm, rfl, List.prefix_refl _, .refl _, hr, h0, hat⟩
  | cons dec ds ih =>
    intro env ctx w s hs ra tm k f rest after hr hnext hn ht hnodes hcode hlevels hd h0 hat
    obtain ⟨hn, hns⟩ := List.append_eq_nil_iff.1 hn
    obtain ⟨ht, hts⟩ := List.append_eq_nil_iff.1 ht
    obtain ⟨hnode, hnodes⟩ := forall_localNodes_cons.1 hnodes
    rw [resolveLocals, localRoutineCode, List.append_assoc] at hcode
    have hcodes := suffix_of_append hcode
    rw [resolveLocals, localLevels, List.forall_mem_append] at hlevels
    obtain ⟨hlevel, hlevels⟩ := hlevels
    rw [resolveLocals, localCode, List.append_assoc] at hat
    cases dec with
    | var l x ty e =>
      obtain ⟨hn, hdec⟩ := List.append_eq_nil_iff.1 hn
      obtain ⟨hn, -⟩ := List.append_eq_nil_iff.1 hn
      have hx := Env.declareErrors_eq_nil.1 hdec
      obtain ⟨t, hte, href⟩ := Expr.checkBelow_ok ht (by simp)
        (hr.knows.type_ne_incomplete (layouts_of_tables hP) hn)
      have hmore := h0.append (suffix_of_append hat.suffix) (inner_localCode Code.mark _ _ _).routine?_eq_none
      rw [← Env.insert_level env x ⟨env.level, ty, env.next⟩] at hlevels
      rw [evalDecs]
      refine (simulates hP hcall e).bind hr hte hnode hd hmore hat fun v w₁ hs₁ _ _ hv hw₁ hh₁ hr₁ hat₁ => ?_
      have hd₁ : H.memory ≤ d + (v.cell :: s).length := by rw [List.length_cons]; omega
      exact (ih (hr₁.declare hnext hx (href _ _ hv)) (hnext.declare x ty v.cell) hns hts hnodes hcodes
        hlevels hd₁ (h0.declare x ty _) hat₁).mono fun ctx' w' h => h.cons hw₁ hh₁
    | func l x ret ps locals body =>
      have hlabel : H.At (.pushLabel (.routine f) :: (localCode Code.mark _ _ _ ++ rest)) s hs hs.length fp ra tm
        w.printed := hat
      obtain ⟨hx, hc⟩ := compiled_func hr.knows hn ht hnode hcode hlevel
      have hd₁ : H.memory ≤ d + (Cell.ofNat (H.code.address (.routine f)) :: s).length := by
        rw [List.length_cons]
        omega
      have hr₁ := hr.declareFunction (r := ⟨ps, locals, body⟩) hnext hx
        (H.addressable _ (hlabel.suffix.subset List.mem_cons_self)) hc
      have hnext₁ := hnext.declare x (.function (signatureOf ps ret)) (Cell.ofNat (H.code.address (.routine f)))
      rw [← Env.insert_level env x ⟨env.level, .function (signatureOf ps ret), env.next⟩] at hlevels
      rw [evalDecs]
      exact (ih hr₁ hnext₁ hns hts hnodes hcodes hlevels hd₁ (h0.declare _ _ _) hlabel.pushLabel).mono fun ctx' w' h =>
        h.cons (.refl _) (List.prefix_refl _)

/-! ## Parameters -/

theorem bindParams_level (ps : List Param) : ∀ (env : Env) (offset : Int),
    (env.bindParams offset ps).level = env.level ∧ (env.bindParams offset ps).next = env.next := by
  induction ps with
  | nil => exact fun _ _ => ⟨rfl, rfl⟩
  | cons p ps ih =>
    intro env offset
    obtain ⟨hl, hn⟩ := ih (env.insert p.id ⟨env.level, p.ty, offset⟩) (wrapOffset (offset + 1))
    exact ⟨hl.trans (Env.insert_level _ _ _), hn.trans (Env.insert_next _ _ _)⟩

/-- **The parameters are bound to the arguments** that lie above the access link, the first of them nearest. -/
theorem Linked.bindParams (ps : List Param) : ∀ {vs : List Value} {env : Env} {ctx : Context} {offset : Int}
    (above below : List Cell), List.Forall₂ (fun v t => v.Has P.types.hierarchy w t) vs (ps.map Param.ty) →
    H.Linked P s hs w env.scopes env.level ctx.self ctx.bindings fp → s = above ++ vs.map Value.cell ++ below →
    Cell.fromEnd (vs.length + below.length) = fp + .ofInt offset →
    H.Linked P s hs w (env.bindParams offset ps).scopes env.level (ctx.bindAll ps vs).self (ctx.bindAll ps vs).bindings
      fp := by
  induction ps with
  | nil =>
    intro vs env ctx offset above below hvs hl _ _
    cases hvs
    exact hl
  | cons p ps ih =>
    intro vs env ctx offset above below hvs hl hst hoff
    cases hvs with
    | @cons v _ vs _ hv hvs =>
      obtain ⟨S, ss, hss⟩ := hl.exists_scope
      have hscopes := Env.scopes_insert hss p.id ⟨env.level, p.ty, offset⟩
      have hlevel := Env.insert_level env p.id ⟨env.level, p.ty, offset⟩
      have hsees : Sees s hs (fp + Cell.ofInt offset) v.cell := by
        refine .inr ⟨above, vs.map Value.cell ++ below, by rw [hst]; simp, ?_⟩
        rw [← hoff]
        congr 1
        rw [List.length_cons, List.length_append, List.length_map]
        omega
      have hl' : H.Linked P s hs w (env.insert p.id ⟨env.level, p.ty, offset⟩).scopes
          (env.insert p.id ⟨env.level, p.ty, offset⟩).level (ctx.bind p.id (.value v)).self
          (ctx.bind p.id (.value v)).bindings fp := by
        rw [hscopes, hlevel]
        rw [hss] at hl
        exact .value hl hsees hv
      have hnext : Cell.fromEnd (vs.length + below.length) = fp + .ofInt (wrapOffset (offset + 1)) := by
        have hstep : Cell.fromEnd (vs.length + below.length) =
            .fromEnd ((v :: vs).length + below.length) + .ofInt 1 := by
          rw [Cell.fromEnd_add, List.length_cons]
          congr 1
          omega
        rw [hstep, hoff, cell_wrapOffset, Cell.ofInt_add, Cell.add_assoc]
      have hrec := ih (above ++ [v.cell]) below hvs hl' (by rw [hst]; simp) hnext
      rw [hlevel] at hrec
      exact hrec

theorem bindAll_self : ∀ (ps : List Param) (vs : List Value) (ctx : Context), (ctx.bindAll ps vs).self = ctx.self
  | p :: ps, v :: vs, ctx => bindAll_self ps vs (ctx.bind p.id (.value v))
  | [], _, _ | _ :: _, [], _ => rfl

theorem length_resolveLocals (ds : List Dec) : ∀ env : Env, (resolveLocals env ds).length = ds.length := by
  induction ds with
  | nil => exact fun _ => rfl
  | cons d ds ih =>
    intro env
    rw [resolveLocals, List.length_cons, List.length_cons, ih]

/-! ## Entering a routine -/

/-- The stack that the code of a routine starts with: the return address, the access link, the arguments, the frame of
the caller. -/
def entryStack (back link : Cell) (args : List Value) (b : Cell) (s : List Cell) : List Cell :=
  back :: link :: (args.map Value.cell ++ b :: s)

/-- The frame of a routine begins at the access link. -/
def entryFrame (args : List Value) (s : List Cell) : Cell := .fromEnd (args.length + s.length + 2 : Nat)

section

variable {args : List Value} {back link b : Cell}

@[simp] theorem length_entryStack : (entryStack back link args b s).length = args.length + s.length + 3 := by
  simp only [entryStack, List.length_cons, List.length_append, List.length_map]
  omega

theorem caller_suffix : s <:+ entryStack back link args b s :=
  (List.suffix_cons b s).trans ((List.suffix_append _ _).trans ((List.suffix_cons _ _).trans (List.suffix_cons _ _)))

theorem entryFrame_add {n : Nat} {offset : Int} (h : (args.length + s.length + 2 : Int) = n + offset) :
    Cell.fromEnd n = entryFrame args s + .ofInt offset := by
  rw [entryFrame, Cell.fromEnd_add]
  congr 1
  omega

theorem Linked.entered {scopes : List Scope} {n : Nat} {self : Option (Ident × Nat)} {bs : List (Ident × Bound)}
    (hl : H.Linked P (link :: (args.map Value.cell ++ b :: s)) hs w scopes n self bs link) :
    H.Linked P (entryStack back link args b s) hs w ([] :: scopes) (n + 1) self bs (entryFrame args s) := by
  refine .enter (hl.later (List.suffix_cons _ _) (List.prefix_refl _) (.refl _))
    (.inr ⟨[back], args.map Value.cell ++ b :: s, rfl, ?_⟩)
  rw [entryFrame]
  congr 1
  simp only [List.length_append, List.length_map, List.length_cons]
  omega

/-- **On entry a routine has its parameters at hand**, and what its declaration sees. -/
theorem Ready.entered {ps : List Param} (hK : P.Knows env) (hn : env.enter.paramErrors 1 ps = [])
    (hl : H.Linked P (link :: (args.map Value.cell ++ b :: s)) hs w env.scopes env.level ctx.self ctx.bindings link)
    (hargs : List.Forall₂ (fun v t => v.Has P.types.hierarchy w t) args (ps.map Param.ty))
    (hrep : H.Represents P w hs) (hg : Ground P s hs) :
    H.Ready P (env.inRoutine ps) (ctx.bindAll ps args) w (entryStack back link args b s) hs (entryFrame args s) := by
  refine ⟨hK.enter.bindParams _ hn, ?_, hrep, hg.later caller_suffix (List.prefix_refl _)⟩
  have hoffset : Cell.fromEnd (args.length + (b :: s).length) = entryFrame args s + .ofInt 1 :=
    entryFrame_add (n := args.length + (b :: s).length) (by rw [List.length_cons]; omega)
  have hlinked : H.Linked P (entryStack back link args b s) hs w env.enter.scopes env.enter.level ctx.self ctx.bindings
      (entryFrame args s) := hl.entered
  have hbound := Linked.bindParams ps [back, link] (b :: s) hargs hlinked rfl hoffset
  rw [← (bindParams_level ps env.enter 1).1] at hbound
  exact hbound

theorem NextCell.entered (ps : List Param) :
    NextCell (env.inRoutine ps) (entryStack back link args b s) (entryFrame args s) := by
  have hnext : (env.inRoutine ps).next = -2 := (bindParams_level ps env.enter 1).2
  rw [NextCell, hnext]
  exact entryFrame_add (n := (entryStack back link args b s).length + 1) (by rw [length_entryStack]; omega)

theorem At.entered {l : Label} {after : Code} (hl : .define l :: .op .cfp :: .op .lra :: after <:+ H.code)
    (hat : H.At (.op .js :: rest) (Cell.ofNat (H.code.address l) :: link :: (args.map Value.cell ++ b :: s)) hs hp fp
      ra tm out)
    (hsuits : H.Suits (Cell.ofNat (H.code.address l) :: link :: (args.map Value.cell ++ b :: s)) hs hp fp (.op .js)
      rest)
    (hnear : H.code.address l ≤ Text.maxInt32) :
    H.At after (entryStack (Cell.ofNat (H.place rest)) link args b s) hs hp (entryFrame args s)
      (Cell.ofNat (H.place rest)) tm out := by
  rw [address_eq hl] at hat hsuits hnear
  have henter := (hat.js hsuits (suffix_of_cons hl) (by simp) (.inl hnear)).cfp.lra
  have hlength : (link :: (args.map Value.cell ++ b :: s)).length = args.length + s.length + 2 := by
    simp only [List.length_cons, List.length_append, List.length_map]
    omega
  rw [hlength] at henter
  exact henter

end

/-! ## Calls -/

theorem takes_of_compiled (hP : P.Sound H) {r : Routine} {ret : Ty} {f : Nat} {n : Option Nat}
    (hc : Compiled H P env r ret f n)
    (hnear : H.code.address (.routine f) ≤ Text.maxInt32) : H.code.Takes Code.mark f r.params.length := by
  obtain ⟨k, after, hcode⟩ := hc.code
  rw [Routine.code, List.append_assoc] at hcode
  exact ⟨hnear, k, _, _, after, fun x hx => ⟨hP.complete x (hc.nodes x hx), hP.fits x (hc.nodes x hx)⟩,
    suffix_of_append hcode⟩

/-- **A call does what the code of the routine does**, if the calls inside it do. -/
theorem invokes_succ (hP : P.Sound H) {depth : Nat} (hcall : H.Invokes P (callWithin P.classes depth) depth) :
    H.Invokes P (callWithin P.classes (depth + 1)) (depth + 1) := by
  intro env r ret f ctx args w s hs link b fp ra tm rest hc hl hargs hrep hg hd h0 hnear hsite hat
  have hlen : args.length = r.params.length := by rw [hargs.length_eq, List.length_map]
  have hsuits : H.Suits (Cell.ofNat (H.code.address (.routine f)) :: link :: (args.map Value.cell ++ b :: s)) hs
      hs.length fp (.op .js) rest := .inr ⟨f, _, _, rfl, hsite, hlen ▸ takes_of_compiled hP hc hnear⟩
  obtain ⟨k, after, hcode⟩ := hc.code
  rw [Routine.code, List.append_assoc] at hcode
  have hroutine := suffix_of_append hcode
  rw [routineCode] at hroutine
  simp only [List.append_assoc, List.cons_append, List.nil_append] at hroutine
  have henter := At.entered hroutine hat hsuits hnear
  have hnames := hc.names
  simp only [Routine.nameErrors, List.append_eq_nil_iff] at hnames
  obtain ⟨⟨hparams, hlocals⟩, hbody⟩ := hnames
  have hready : H.Ready P (env.inRoutine r.params) (ctx.bindAll r.params args) w
      (entryStack (Cell.ofNat (H.place rest)) link args b s) hs (entryFrame args s) :=
    .entered hc.knows hparams hl hargs hrep hg
  obtain ⟨hndecs, hnbody⟩ : (∀ n ∈ localNodes (r.resolve env).locals, n ∈ P.nodes) ∧
      ∀ n ∈ (r.resolve env).body.nodes, n ∈ P.nodes :=
    ⟨fun n hn => hc.nodes n (List.mem_append_left _ hn), fun n hn => hc.nodes n (List.mem_append_right _ hn)⟩
  have hinner : (env.inRoutine r.params).level = env.level + 1 := (bindParams_level r.params env.enter 1).1
  have hlevels : ∀ x ∈ localLevels ((ctx.bindAll r.params args).self.map fun _ => (env.inRoutine r.params).level + 1)
      (f + 1) (r.resolve env).locals, H.levels x.1 = x.2 := by
    have hlevels := hc.inner
    rw [Option.map_map] at hlevels
    rw [bindAll_self, hinner]
    exact hlevels
  have hstands : H.Stands (env.inRoutine r.params) (ctx.bindAll r.params args) _ := .entered
    (c := .op .cfp :: .op .lra :: localCode Code.mark k (f + 1) (r.resolve env).locals)
    (by simp only [Code.size_append, Code.size_op]; omega) hroutine
    (List.forall_mem_cons.2 ⟨rfl, List.forall_mem_cons.2 ⟨rfl, (inner_localCode Code.mark _ _ _).routine?_eq_none⟩⟩)
    (by rw [hc.level, bindAll_self, hinner])
  -- the frame makes up for the call that is now pending
  have hd' : H.memory ≤ depth + (entryStack (Cell.ofNat (H.place rest)) link args b s).length := by
    rw [length_entryStack]
    omega
  refine (simulatesDecs hP hcall r.locals hready (NextCell.entered r.params) hlocals hc.typed.locals hndecs hcode
    hlevels hd' hstands henter).bind fun inner w₁ h₁ => ?_
  obtain ⟨cells, hs₁, ra₁, tm₁, hcells, hh₁, hw₁, hr₁, hstands₁, hat₁⟩ := h₁
  obtain ⟨role, x, l, hcheck⟩ := hc.typed.body
  obtain ⟨t, hte, href⟩ := Expr.checkBelow_ok hcheck (by simp)
    (hr₁.knows.type_ne_incomplete (layouts_of_tables hP) hbody)
  have hd₁ : H.memory ≤ depth + (cells ++ entryStack (Cell.ofNat (H.place rest)) link args b s).length := by
    rw [List.length_append]
    omega
  have hend := hstands₁.after hat₁.suffix (Expr.inner_code Code.mark _ _).routine?_eq_none (by simp)
  refine (simulates hP hcall r.body hr₁ hte hnbody hd₁ hend hat₁).mono fun v w₂ h₂ => ?_
  obtain ⟨hv, hs₂, ra₂, tm₂, hh₂, hw₂, hrep₂, hat₂⟩ := h₂
  obtain ⟨ra₃, hback⟩ := hat₂.leave (hcells.trans (length_resolveLocals r.locals _).symm)
    (by rw [List.length_map]; exact hlen) (suffix_of_cons hat.suffix) h0 (hat.near hsuits)
  exact ⟨href _ _ hv, hs₂, ra₃, _, hh₁.trans hh₂, hw₁.trans hw₂, hrep₂, hback⟩

/-- **A bounded call does what the code of the routine does.**  The induction is on the bound: a frame takes a cell at
least, so where the bound is used up the stack would not fit the memory. -/
theorem invokes_callWithin (hP : P.Sound H) : ∀ depth : Nat, H.Invokes P (callWithin P.classes depth) depth
  | 0 => by
    intro env r ret f ctx args w s hs link b fp ra tm rest _ _ _ _ _ hd _ _ _ hat
    refine hat.starved ?_
    simp only [List.length_cons, List.length_append]
    omega
  | depth + 1 => invokes_succ hP (invokes_callWithin hP depth)

end Host
end FoolLang
