import FoolLang.Proofs.Layouts
import FoolLang.Proofs.Subclasses
/-!
# Written — what of a program stands in its source

Reading a source makes a tree of what is written in it and the lines where it stands; entries, levels, offsets and
layouts come from resolving.  Resolving changes nothing that was written (`Program.written_resolve`), and nothing but
lines stands in a parsed program besides (`written_of_parse`): two programs with the same written parts are the same up
to lines.
-/
namespace FoolLang

mutual

/-- An expression without its lines and with nothing resolved. -/
def Expr.written : Expr → Expr
  | .int _ n => .int 0 n
  | .bool _ b => .bool 0 b
  | .null _ => .null 0
  | .binary _ op a b => .binary 0 op a.written b.written
  | .not _ a => .not 0 a.written
  | .cond _ c t e => .cond 0 c.written t.written e.written
  | .print _ a => .print 0 a.written
  | .id _ u => .id 0 (.fresh u.id)
  | .call _ u args => .call 0 (.fresh u.id) (writtenArgs args)
  | .send _ u m _ args => .send 0 (.fresh u.id) m none (writtenArgs args)
  | .new _ c _ args => .new 0 c none (writtenArgs args)

def writtenArgs : List Expr → List Expr
  | [] => []
  | e :: es => e.written :: writtenArgs es

end

def Param.written (p : Param) : Param := ⟨0, p.id, p.ty⟩

mutual

def Dec.written : Dec → Dec
  | .var _ x ty v => .var 0 x ty v.written
  | .func _ x ret ps ls body => .func 0 x ret (ps.map Param.written) (writtenLocals ls) body.written

def writtenLocals : List Dec → List Dec
  | [] => []
  | d :: ds => d.written :: writtenLocals ds

end

def Field.written (f : Field) : Field := ⟨0, f.id, f.ty, 0⟩

def Method.written (m : Method) : Method :=
  ⟨0, m.id, m.ret, m.params.map Param.written, writtenLocals m.locals, m.body.written, 0⟩

def Class.written (c : Class) : Class :=
  ⟨0, c.id, c.super, c.fields.map Field.written, c.methods.map Method.written, none, none⟩

def Program.written : Program → Program
  | .letIn cs ds body => .letIn (cs.map Class.written) (writtenLocals ds) body.written
  | .expr body => .expr body.written

/-! ## Types -/

/-- A type that can stand in a source. -/
def Ty.Writable (t : Ty) : Prop := ∃ ts, TypeText ts t

mutual

/-- The types that are declared in a declaration. -/
def Dec.types : Dec → List Ty
  | .var _ _ ty _ => [ty]
  | .func _ _ ret ps ls _ => ret :: (ps.map Param.ty ++ localTypes ls)

def localTypes : List Dec → List Ty
  | [] => []
  | d :: ds => d.types ++ localTypes ds

end

def Method.types (m : Method) : List Ty := m.ret :: (m.params.map Param.ty ++ localTypes m.locals)

def Class.types (c : Class) : List Ty := c.fields.map Field.ty ++ c.methods.flatMap Method.types

def Program.types : Program → List Ty
  | .letIn cs ds _ => cs.flatMap Class.types ++ localTypes ds
  | .expr _ => []

theorem map_ty_written (ps : List Param) : (ps.map Param.written).map Param.ty = ps.map Param.ty := List.map_map

mutual

theorem Dec.types_written : ∀ d : Dec, d.written.types = d.types
  | .var _ _ _ _ => rfl
  | .func _ _ _ ps ls _ => by rw [Dec.written, Dec.types, Dec.types, map_ty_written, localTypes_written ls]

theorem localTypes_written : ∀ ds : List Dec, localTypes (writtenLocals ds) = localTypes ds
  | [] => rfl
  | d :: ds => by rw [writtenLocals, localTypes, localTypes, d.types_written, localTypes_written ds]

end

theorem Method.types_written (m : Method) : m.written.types = m.types := by
  rw [types, types, written, map_ty_written, localTypes_written]

theorem Class.types_written (c : Class) : c.written.types = c.types := by
  have hfields : (c.fields.map Field.written).map Field.ty = c.fields.map Field.ty := List.map_map
  rw [types, types, written, hfields, List.flatMap_map]
  exact congrArg _ (List.flatMap_congr fun m _ => m.types_written)

/-- The types in a program are written in it. -/
theorem Program.types_written (p : Program) : p.written.types = p.types := by
  cases p with
  | letIn cs ds body =>
    rw [written, types, types, localTypes_written, List.flatMap_map]
    exact congrArg (· ++ _) (List.flatMap_congr fun c _ => c.types_written)
  | expr body => rfl

/-! ## Resolving -/

mutual

theorem Expr.written_resolve (env : Env) : ∀ e : Expr, (e.resolve env).written = e.written
  | .int _ _ | .bool _ _ | .null _ => rfl
  | .binary _ _ a b => by rw [Expr.resolve, Expr.written, Expr.written, a.written_resolve, b.written_resolve]
  | .not _ a | .print _ a => by rw [Expr.resolve, Expr.written, Expr.written, a.written_resolve]
  | .cond _ c t e => by
    rw [Expr.resolve, Expr.written, Expr.written, c.written_resolve, t.written_resolve, e.written_resolve]
  | .id _ u => by rw [Expr.resolve, Expr.written, Expr.written, env.use_id]
  | .call _ u args => by rw [Expr.resolve, Expr.written, Expr.written, env.use_id, writtenArgs_resolve env args]
  | .send _ u m _ args => by
    rw [Expr.resolve, Expr.written, ← writtenArgs_resolve env args]
    cases env.sendTarget u.id m <;> rfl
  | .new _ _ _ args => by rw [Expr.resolve, Expr.written, Expr.written, writtenArgs_resolve env args]

theorem writtenArgs_resolve (env : Env) : ∀ es : List Expr, writtenArgs (resolveArgs env es) = writtenArgs es
  | [] => rfl
  | e :: es => by rw [resolveArgs, writtenArgs, writtenArgs, e.written_resolve, writtenArgs_resolve env es]

end

mutual

theorem Dec.written_resolve : ∀ (d : Dec) (env : Env), (d.resolve env).written = d.written
  | .var _ _ _ v, env => by rw [Dec.resolve, Dec.written, Dec.written, v.written_resolve]
  | .func _ _ _ _ ls body, env => by
    rw [Dec.resolve, Dec.written, Dec.written, writtenLocals_resolve ls, body.written_resolve]

theorem writtenLocals_resolve : ∀ (ds : List Dec) (env : Env), writtenLocals (resolveLocals env ds) = writtenLocals ds
  | [], _ => rfl
  | d :: ds, env => by rw [resolveLocals, writtenLocals, writtenLocals, d.written_resolve, writtenLocals_resolve ds]

end

theorem Method.written_resolve (m : Method) (env : Env) : (m.resolve env).written = m.written := by
  rw [written, written, resolve, writtenLocals_resolve, m.body.written_resolve]

theorem map_written_resolveFields : ∀ (fs : List Field) (level : Nat) (s : Members),
    (resolveFields level s fs).map Field.written = fs.map Field.written
  | [], _, _ => rfl
  | f :: fs, level, s => by
    rw [resolveFields, List.map_cons, List.map_cons, map_written_resolveFields fs]
    rfl

/-- **Refused or not, a method stays as it was written.** -/
theorem map_written_resolveMethods (env : Env) (level : Nat) : ∀ (ms : List Method) (s : Members),
    (resolveMethods env level s ms).map Method.written = ms.map Method.written
  | [], _ => rfl
  | m :: ms, s => by
    rw [resolveMethods, List.map_cons, List.map_cons, map_written_resolveMethods env level ms]
    refine congrArg (· :: _) ?_
    cases s.methodSlot m.id with
    | ok offset => exact m.written_resolve env
    | error r => rfl

theorem Class.written_resolve (c : Class) (env : Env) : (c.resolve env).written = c.written := by
  rw [written, written, resolve, map_written_resolveFields, map_written_resolveMethods]

theorem map_written_resolveClasses : ∀ (cs : List Class) (env : Env),
    (resolveClasses env cs).map Class.written = cs.map Class.written
  | [], _ => rfl
  | c :: cs, env => by
    rw [resolveClasses, List.map_cons, List.map_cons, c.written_resolve, map_written_resolveClasses cs]

/-- **Resolving a program leaves what was written.** -/
theorem Program.written_resolve (p : Program) : p.resolve.written = p.written := by
  cases p with
  | letIn cs ds body =>
    rw [resolve, written, written, map_written_resolveClasses, writtenLocals_resolve, body.written_resolve]
  | expr body => rw [resolve, written, written, body.written_resolve]

/-! ## Reading -/

mutual

theorem Layered.written {n : Nat} {ts : List LinedToken} {e : Expr} (h : Layered UnaryText n ts e) :
    e.written = e.relabel .oneLine :=
  match h with
  | .binary _ left right => congrArg₂ (Expr.binary 0 _) left.written right.written
  | .tighter inner => inner.written
  | .unary inner => inner.written

theorem UnaryText.written {ts : List LinedToken} {e : Expr} (h : UnaryText ts e) : e.written = e.relabel .oneLine :=
  match h with
  | .not arg => congrArg (Expr.not 0) arg.written
  | .atom inner => inner.written

/-- **Nothing in an expression is resolved when it is read.** -/
theorem AtomText.written {ts : List LinedToken} {e : Expr} (h : AtomText ts e) : e.written = e.relabel .oneLine :=
  match h with
  | .num _ _ | .negative _ _ _ | .yes _ | .no _ | .null _ | .id _ _ => rfl
  | .new args => congrArg (Expr.new 0 _ none) args.written
  | .cond test yes no => by rw [Expr.written, Expr.relabel, test.written, yes.written, no.written]; rfl
  | .print arg => congrArg (Expr.print 0) arg.written
  | .group inner => inner.written
  | .call args => congrArg (Expr.call 0 _) args.written
  | .send args => congrArg (Expr.send 0 _ _ none) args.written

theorem Listed.written {ts : List LinedToken} {es : List Expr} (h : Listed (Layered UnaryText 0) ts es) :
    writtenArgs es = relabelArgs .oneLine es :=
  match h with
  | .nil => rfl
  | .cons head tail => congrArg₂ List.cons head.written tail.written

theorem More.written {ts : List LinedToken} {es : List Expr} (h : More (Layered UnaryText 0) ts es) :
    writtenArgs es = relabelArgs .oneLine es :=
  match h with
  | .nil => rfl
  | .cons head tail => congrArg₂ List.cons head.written tail.written

end

theorem Ty.relabel_oneLine (t : Ty) : t.relabel .oneLine = t := t.relabel_same fun _ => rfl

theorem Param.written_eq : Param.written = Param.relabel .oneLine := funext fun p =>
  congrArg (Param.mk 0 p.id) p.ty.relabel_oneLine.symm

theorem BindingText.writable {ts : List LinedToken} {b : Binding} (h : BindingText ts b) : b.ty.Writable := by
  cases h with
  | mk type => exact ⟨_, type⟩

theorem Listed.writable {ts : List LinedToken} {bs : List Binding} (h : Listed BindingText ts bs) :
    ∀ t ∈ bs.map Binding.ty, t.Writable := fun t ht => by
  obtain ⟨b, hb, rfl⟩ := List.mem_map.1 ht
  exact h.forall BindingText.writable b hb

mutual

theorem DecText.written {ts : List LinedToken} {d : Dec} (h : DecText ts d) :
    d.written = d.relabel .oneLine ∧ ∀ t ∈ d.types, t.Writable :=
  match h with
  | .var heading value => by
    refine ⟨?_, List.forall_mem_singleton.2 heading.writable⟩
    rw [Dec.written, Dec.relabel, value.written, Ty.relabel_oneLine]
    rfl
  | .func (m := m) routine => by
    obtain ⟨hwritten, htypes⟩ := routine.written
    refine ⟨?_, htypes⟩
    have hdec := congrArg (fun m : Method => Dec.func m.line m.id m.ret m.params m.locals m.body) hwritten
    rw [Dec.relabel, relabelLocals_eq]
    exact hdec

theorem RoutineText.written {ts : List LinedToken} {m : Method} (h : RoutineText DecText ts m) :
    m.written = m.relabel .oneLine ∧ ∀ t ∈ m.types, t.Writable :=
  match h with
  | .mk heading parameters locals body => by
    obtain ⟨hlocals, htypes⟩ := locals.written
    refine ⟨?_, List.forall_mem_cons.2 ⟨heading.writable, List.forall_mem_append.2 ⟨?_, htypes⟩⟩⟩
    · rw [relabelLocals_eq] at hlocals
      rw [Method.written, Method.relabel, hlocals, body.written, Param.written_eq, Ty.relabel_oneLine]
      rfl
    · rw [List.map_map]
      exact parameters.writable

theorem LocalsText.written {ts : List LinedToken} {ds : List Dec} (h : LocalsText DecText ts ds) :
    writtenLocals ds = relabelLocals .oneLine ds ∧ ∀ t ∈ localTypes ds, t.Writable :=
  match h with
  | .none => ⟨rfl, nofun⟩
  | .some decs _ => decs.written

theorem Many.written {ts : List LinedToken} {ds : List Dec} (h : Many DecText ts ds) :
    writtenLocals ds = relabelLocals .oneLine ds ∧ ∀ t ∈ localTypes ds, t.Writable :=
  match h with
  | .nil => ⟨rfl, nofun⟩
  | .cons head tail => by
    obtain ⟨hd, htypes⟩ := head.written
    obtain ⟨hds, hrest⟩ := tail.written
    exact ⟨congrArg₂ List.cons hd hds, List.forall_mem_append.2 ⟨htypes, hrest⟩⟩

end

theorem Binding.written_field : Field.written ∘ Binding.field = Field.relabel .oneLine ∘ Binding.field :=
  funext fun b => congrArg (Field.mk 0 b.id · 0) b.ty.relabel_oneLine.symm

theorem ClassText.written {ts : List LinedToken} {c : Class} (h : ClassText ts c) :
    c.written = c.relabel .oneLine ∧ ∀ t ∈ c.types, t.Writable := by
  cases h with
  | @mk _ _ _ _ _ _ c ss fs ms super fields methods parent state routines =>
    have hmethods := routines.forall RoutineText.written
    constructor
    · rw [Class.written, Class.relabel, List.map_map, List.map_map, Binding.written_field,
        List.map_congr_left fun m hm => (hmethods m hm).1]
      cases super <;> rfl
    · refine List.forall_mem_append.2 ⟨?_, fun t ht => ?_⟩
      · rw [List.map_map]
        exact state.writable
      · obtain ⟨m, hm, ht⟩ := List.mem_flatMap.1 ht
        exact (hmethods m hm).2 t ht

/-- **A parsed program is what is written in its source, and lines.** -/
theorem written_of_parse {source : List Char} {p : Program} (hp : parse source = .ok p) :
    p.written = p.relabel .oneLine ∧ ∀ t ∈ p.types, t.Writable := by
  obtain ⟨_, hs⟩ := exists_sentence hp
  cases hs with
  | letIn classes decs body =>
    have hclasses := classes.forall ClassText.written
    obtain ⟨hdecs, htypes⟩ := decs.written
    rw [relabelLocals_eq] at hdecs
    constructor
    · rw [Program.written, Program.relabel, hdecs, body.written, List.map_congr_left fun c hc => (hclasses c hc).1]
    · refine List.forall_mem_append.2 ⟨fun t ht => ?_, htypes⟩
      obtain ⟨c, hc, ht⟩ := List.mem_flatMap.1 ht
      exact (hclasses c hc).2 t ht
  | expr body => exact ⟨congrArg Program.expr body.written, List.forall_mem_nil _⟩

end FoolLang
