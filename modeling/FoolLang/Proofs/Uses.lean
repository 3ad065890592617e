import FoolLang.Proofs.Checks
import FoolLang.Scope.Errors
/-!
# Uses — the entries that resolving a program fills in

Every offset that a scope hands out fits 32 bits, so the offsets in a resolved program fit (`Program.resolve_fits`).
Where the names of a program are all right, resolving it leaves no use without its entry (`Program.resolve_complete`),
and every node can be checked (`Program.resolve_checkable`): a class whose virtual table is known is declared in the
global scope and has a layout.
-/
namespace FoolLang

open Assembly

theorem fitsWord_wrapOffset (n : Int) : FitsWord (wrapOffset n) := fitsWord_toInt _

theorem mem_of_lookup {β : Type} {x : Ident} {b : β} {l : List (Ident × β)} (h : l.lookup x = some b) : (x, b) ∈ l := by
  obtain ⟨l₁, l₂, rfl, -⟩ := List.lookup_eq_some_iff.1 h
  simp

theorem lookup_cons_isSome {β : Type} {x y : Ident} {b : β} {l : List (Ident × β)} (h : (l.lookup x).isSome) :
    (((y, b) :: l).lookup x).isSome := by
  rw [List.lookup_cons]
  split
  · rfl
  · exact h

/-- The offsets in a scope fit 32 bits. -/
def Scope.Fits (s : Scope) : Prop := ∀ p ∈ s, FitsWord p.2.offset

theorem Scope.Fits.cons {s : Scope} (h : s.Fits) (x : Ident) {e : Entry} (he : FitsWord e.offset) :
    Scope.Fits ((x, e) :: s) := List.forall_mem_cons.2 ⟨he, h⟩

namespace Env

theorem use_id (env : Env) (x : Ident) : (env.use x).id = x := by
  unfold use; split <;> rfl

theorem insert_level (env : Env) (x : Ident) (e : Entry) : (env.insert x e).level = env.level := by
  unfold insert; split <;> rfl

theorem insert_next (env : Env) (x : Ident) (e : Entry) : (env.insert x e).next = env.next := by
  unfold insert; split <;> rfl

theorem insert_tables (env : Env) (x : Ident) (e : Entry) : (env.insert x e).tables = env.tables := by
  unfold insert; split <;> rfl

theorem insert_layouts (env : Env) (x : Ident) (e : Entry) : (env.insert x e).layouts = env.layouts := by
  unfold insert; split <;> rfl

theorem insert_hierarchy (env : Env) (x : Ident) (e : Entry) : (env.insert x e).hierarchy = env.hierarchy := by
  unfold insert; split <;> rfl

theorem after_known (env : Env) (d : Dec) :
    (env.after d).layouts = env.layouts ∧ (env.after d).hierarchy = env.hierarchy := by
  cases d <;> exact ⟨insert_layouts _ _ _, insert_hierarchy _ _ _⟩

theorem afterAll_known : ∀ (ds : List Dec) (env : Env),
    (env.afterAll ds).layouts = env.layouts ∧ (env.afterAll ds).hierarchy = env.hierarchy
  | [], _ => ⟨rfl, rfl⟩
  | d :: ds, env =>
    have ih := afterAll_known ds (env.after d)
    ⟨ih.1.trans (after_known env d).1, ih.2.trans (after_known env d).2⟩

theorem declareErrors_eq_nil {env : Env} {kind : DeclKind} {x : Ident} {l : Nat} :
    env.declareErrors kind x l = [] ↔ env.declaredHere x = false := by
  unfold declareErrors
  cases env.declaredHere x <;> simp

theorem bindParams_tables : ∀ (ps : List Param) (offset : Int) (env : Env),
    (env.bindParams offset ps).tables = env.tables
  | [], _, _ => rfl
  | p :: ps, _, env => (bindParams_tables ps _ _).trans (insert_tables env p.id _)

/-- A name in the global scope stays there when another name is entered. -/
theorem globals_insert {env : Env} {c : Ident} (h : (env.globals.lookup c).isSome) (x : Ident) (e : Entry) :
    ((env.insert x e).globals.lookup c).isSome := by
  unfold insert
  split
  · exact h
  · rename_i s ss hs
    simp only [globals, hs] at h ⊢
    cases ss with
    | nil => exact lookup_cons_isSome h
    | cons t ts => simpa [List.getLast?_cons_cons] using h

/-- The offsets an environment knows fit, and the classes it knows are declared in the global scope. -/
structure Sound (env : Env) : Prop where
  scopes : ∀ s ∈ env.scopes, s.Fits
  tables : ∀ t ∈ env.tables, t.2.Fits
  next : FitsWord env.next
  known : ∀ c, (env.tables.lookup c).isSome → (env.globals.lookup c).isSome

/-- Only the global scope is open. -/
def AtTop (env : Env) : Prop := ∃ s, env.scopes = [s]

theorem AtTop.insert {env : Env} (h : env.AtTop) (x : Ident) (e : Entry) : (env.insert x e).AtTop := by
  obtain ⟨s, hs⟩ := h
  exact ⟨(x, e) :: s, by simp [Env.insert, hs]⟩

theorem AtTop.lookup_globals {env : Env} (h : env.AtTop) (x : Ident) (e : Entry) :
    ((env.insert x e).globals.lookup x) = some e := by
  obtain ⟨s, hs⟩ := h
  simp [Env.insert, hs, globals]

namespace Sound

variable {env : Env}

theorem insert (h : env.Sound) (x : Ident) {e : Entry} (he : FitsWord e.offset) : (env.insert x e).Sound where
  scopes := by
    have hs := h.scopes
    unfold Env.insert
    split
    · exact hs
    · rename_i s ss hss
      rw [hss, List.forall_mem_cons] at hs
      exact List.forall_mem_cons.2 ⟨hs.1.cons x he, hs.2⟩
  tables := by rw [insert_tables]; exact h.tables
  next := by rw [insert_next]; exact h.next
  known c hc := by
    rw [insert_tables] at hc
    exact globals_insert (h.known c hc) x e

theorem declare (h : env.Sound) (x : Ident) (ty : Ty) : (env.declare x ty).Sound :=
  have hi := h.insert x (e := ⟨env.level, ty, env.next⟩) h.next
  ⟨hi.scopes, hi.tables, fitsWord_wrapOffset _, hi.known⟩

theorem enter (h : env.Sound) : env.enter.Sound where
  scopes := List.forall_mem_cons.2 ⟨(fun p hp => nomatch hp), h.scopes⟩
  tables := h.tables
  next := show FitsWord (-2) by decide
  known c hc := by
    have hg := h.known c hc
    cases hs : env.scopes with
    | nil => simp [globals, hs] at hg
    | cons s ss => simpa [globals, Env.enter, hs, List.getLast?_cons_cons] using hg

theorem bindParams : ∀ (ps : List Param) {env : Env} {offset : Int}, env.Sound → FitsWord offset →
    (env.bindParams offset ps).Sound
  | [], _, _, h, _ => h
  | p :: ps, _, _, h, ho => bindParams ps (h.insert p.id ho) (fitsWord_wrapOffset _)

theorem inRoutine (h : env.Sound) (ps : List Param) : (env.inRoutine ps).Sound := bindParams ps h.enter (by decide)

theorem after (h : env.Sound) (d : Dec) : (env.after d).Sound := by
  cases d with
  | var _ x ty _ => exact h.declare x ty
  | func _ x ret ps _ _ => exact h.declare x _

theorem afterAll : ∀ (ds : List Dec) {env : Env}, env.Sound → (env.afterAll ds).Sound
  | [], _, h => h
  | d :: ds, _, h => afterAll ds (h.after d)

theorem lookup (h : env.Sound) {x : Ident} {e : Entry} (he : env.lookup x = some e) : FitsWord e.offset := by
  obtain ⟨s, hs, hx⟩ := List.exists_of_findSome?_eq_some he
  exact h.scopes s hs _ (mem_of_lookup hx)

theorem use (h : env.Sound) {x : Ident} {e : Entry} (he : (env.use x).entry = some e) : FitsWord e.offset := by
  unfold Env.use at he
  split at he
  · cases he
    exact h.lookup ‹_›
  · cases he

theorem globals (h : env.Sound) {x : Ident} {e : Entry} (he : env.globals.lookup x = some e) : FitsWord e.offset := by
  unfold Env.globals at he
  cases hl : env.scopes.getLast? with
  | none => simp [hl] at he
  | some s => exact h.scopes s (List.mem_of_getLast? hl) _ (mem_of_lookup (by simpa [hl] using he))

theorem instantiable (h : env.Sound) {c : Ident} {e : Entry} (he : env.instantiable c = some e) :
    FitsWord e.offset := by
  unfold Env.instantiable at he
  split at he
  · exact h.globals he
  · cases he

theorem sendTarget (h : env.Sound) {x m : Ident} {e me : Entry} (ht : env.sendTarget x m = .ok (e, me)) :
    FitsWord e.offset ∧ FitsWord me.offset := by
  unfold Env.sendTarget at ht
  split at ht
  · cases ht
  · rename_i o ho
    split at ht
    · rename_i c hc
      split at ht
      · rename_i mo hmo
        split at ht
        · cases ht
          obtain ⟨table, htab, hm⟩ := Option.bind_eq_some_iff.1 hmo
          exact ⟨h.lookup ho, h.tables _ (mem_of_lookup htab) _ (mem_of_lookup hm)⟩
        · cases ht
      · cases ht
    · cases ht

end Sound
end Env

namespace Members

theorem addField_fits {s : Members} (h : s.table.Fits) (level : Nat) (f : Field) :
    (s.addField level f).table.Fits := by
  unfold addField
  split
  · exact h
  · rename_i offset ho
    refine h.cons f.id ?_
    unfold fieldSlot at ho
    split at ho
    · cases ho
    · split at ho
      · cases ho
        exact fitsWord_wrapOffset _
      · rename_i e he
        split at ho
        · cases ho
        · cases ho
          exact h _ (mem_of_lookup he)

theorem addFields_fits (level : Nat) : ∀ (fs : List Field) {s : Members}, s.table.Fits →
    (fs.foldl (addField level) s).table.Fits
  | [], _, h => h
  | f :: fs, _, h => addFields_fits level fs (addField_fits h level f)

theorem addMethod_fits {s : Members} (h : s.table.Fits) (level : Nat) (m : Method) :
    (s.addMethod level m).table.Fits := by
  unfold addMethod
  split
  · exact h
  · rename_i offset ho
    refine h.cons m.id ?_
    unfold methodSlot at ho
    split at ho
    · cases ho
    · split at ho
      · cases ho
        exact fitsWord_wrapOffset _
      · rename_i e he
        split at ho
        · cases ho
          exact h _ (mem_of_lookup he)
        · cases ho

theorem addMethods_fits (level : Nat) : ∀ (ms : List Method) {s : Members}, s.table.Fits →
    (ms.foldl (addMethod level) s).table.Fits
  | [], _, h => h
  | m :: ms, _, h => addMethods_fits level ms (addMethod_fits h level m)

end Members

namespace Env.Sound

variable {env : Env}

theorem inherited (h : env.Sound) (c : Class) : (env.inherited c).table.Fits := by
  unfold Env.inherited
  split
  · exact fun p hp => nomatch hp
  · split
    · exact fun p hp => nomatch hp
    · rename_i ht
      exact h.tables _ (mem_of_lookup ht)

theorem members (h : env.Sound) (c : Class) : (env.members c).table.Fits :=
  Members.addMethods_fits _ c.methods (Members.addFields_fits _ c.fields (h.inherited c))

theorem afterClass (h : env.Sound) (ht : env.AtTop) (c : Class) : (env.afterClass c).Sound := by
  have hd := h.declare c.id (.cls (env.members c).layout)
  refine ⟨hd.scopes, ?_, hd.next, fun d hk => ?_⟩
  · exact List.forall_mem_cons.2 ⟨h.members c, h.tables⟩
  · by_cases hdc : d = c.id
    · subst hdc
      exact Option.isSome_iff_exists.2 ⟨_, ht.lookup_globals c.id _⟩
    · refine hd.known d ?_
      have hb : (d == c.id) = false := by simpa using hdc
      simp only [Env.afterClass, List.lookup_cons, hb] at hk
      rw [show (env.declare c.id (.cls (env.members c).layout)).tables = env.tables from insert_tables _ _ _]
      exact hk

theorem inClass (h : env.Sound) (ht : env.AtTop) (c : Class) : (env.inClass c).Sound := by
  have ha := h.afterClass ht c
  refine ⟨List.forall_mem_cons.2 ⟨h.members c, ha.scopes⟩, ha.tables, ha.next, fun d hk => ?_⟩
  have hg := ha.known d hk
  cases hs : (env.afterClass c).scopes with
  | nil => simp [Env.globals, hs] at hg
  | cons s ss => simpa [Env.globals, Env.inClass, hs, List.getLast?_cons_cons] using hg

end Env.Sound

theorem Env.AtTop.afterClass {env : Env} (h : env.AtTop) (c : Class) : (env.afterClass c).AtTop := h.insert _ _

theorem Env.sound_initial (classNames : List Ident) : (Env.initial classNames).Sound where
  scopes s hs := by
    obtain rfl := List.mem_singleton.1 hs
    exact fun p hp => nomatch hp
  tables t ht := nomatch ht
  next := show FitsWord (-2) by decide
  known c hc := nomatch hc

theorem Env.Sound.afterClasses : ∀ (cs : List Class) {env : Env}, env.Sound → env.AtTop →
    (cs.foldl Env.afterClass env).Sound
  | [], _, h, _ => h
  | c :: cs, _, h, ht => afterClasses cs (h.afterClass ht c) (ht.afterClass c)

theorem Program.sound_classEnv (p : Program) : p.classEnv.Sound :=
  (Env.sound_initial _).afterClasses p.classes ⟨[], rfl⟩

theorem Program.sound_mainEnv (p : Program) : p.mainEnv.Sound := p.sound_classEnv.afterAll p.decs

/-! ## Offsets -/

mutual

theorem Expr.resolve_fits {env : Env} (h : env.Sound) : ∀ e : Expr, ∀ n ∈ (e.resolve env).nodes, n.OffsetsFit
  | .int _ _ | .bool _ _ | .null _ => by simp [Expr.resolve, Expr.nodes, Expr.OffsetsFit, Expr.entries]
  | .binary _ _ a b =>
    Expr.forall_nodes_binary.2 ⟨(fun _ hx => nomatch hx), a.resolve_fits h, b.resolve_fits h⟩
  | .not _ a => Expr.forall_nodes_not.2 ⟨(fun _ hx => nomatch hx), a.resolve_fits h⟩
  | .cond _ c t e =>
    Expr.forall_nodes_cond.2 ⟨(fun _ hx => nomatch hx), c.resolve_fits h, t.resolve_fits h, e.resolve_fits h⟩
  | .print _ a => Expr.forall_nodes_print.2 ⟨(fun _ hx => nomatch hx), a.resolve_fits h⟩
  | .id _ u => fun n hn => by
    obtain rfl := List.mem_singleton.1 hn
    exact fun x hx => h.use (by simpa [Expr.entries] using hx)
  | .call _ u args => Expr.forall_nodes_call.2
    ⟨fun x hx => h.use (by simpa [Expr.entries] using hx), resolveArgs_fits h args⟩
  | .send l u m _ args => by
    simp only [Expr.resolve]
    split
    · rename_i o me ht
      obtain ⟨ho, hm⟩ := h.sendTarget ht
      refine Expr.forall_nodes_send.2 ⟨fun x hx => ?_, resolveArgs_fits h args⟩
      rcases List.mem_append.1 hx with hx | hx
      · obtain rfl := List.mem_singleton.1 hx
        exact ho
      · obtain rfl := List.mem_singleton.1 hx
        exact hm
    · exact Expr.forall_nodes_send.2 ⟨(fun x hx => nomatch hx), resolveArgs_fits h args⟩
  | .new _ c _ args => Expr.forall_nodes_new.2
    ⟨fun x hx => h.instantiable (by simpa [Expr.entries] using hx), resolveArgs_fits h args⟩

theorem resolveArgs_fits {env : Env} (h : env.Sound) : ∀ es : List Expr,
    ∀ n ∈ argNodes (resolveArgs env es), n.OffsetsFit
  | [] => fun _ hn => nomatch hn
  | e :: es => forall_argNodes_cons.2 ⟨e.resolve_fits h, resolveArgs_fits h es⟩

end

mutual

theorem Dec.resolve_fits : ∀ (d : Dec) {env : Env}, env.Sound → ∀ n ∈ (d.resolve env).nodes, n.OffsetsFit
  | .var _ _ _ v, _, h => v.resolve_fits h
  | .func _ x ret ps ls body, _, h =>
    have hi := (h.declare x (.function (signatureOf ps ret))).inRoutine ps
    Dec.forall_nodes_func.2 ⟨resolveLocals_fits ls hi, body.resolve_fits (hi.afterAll ls)⟩

theorem resolveLocals_fits : ∀ (ds : List Dec) {env : Env}, env.Sound →
    ∀ n ∈ localNodes (resolveLocals env ds), n.OffsetsFit
  | [], _, _ => fun _ hn => nomatch hn
  | d :: ds, _, h => forall_localNodes_cons.2 ⟨d.resolve_fits h, resolveLocals_fits ds (h.after d)⟩

end

theorem Method.resolve_fits {env : Env} (h : env.Sound) (m : Method) : ∀ n ∈ (m.resolve env).nodes, n.OffsetsFit :=
  have hi := h.inRoutine m.params
  Method.forall_nodes.2 ⟨resolveLocals_fits m.locals hi, m.body.resolve_fits (hi.afterAll m.locals)⟩

theorem resolveMethods_fits {env : Env} (h : env.Sound) (level : Nat) : ∀ (ms : List Method) (s : Members),
    (∀ m ∈ ms, ∀ n ∈ m.nodes, n.OffsetsFit) → ∀ m ∈ resolveMethods env level s ms, ∀ n ∈ m.nodes, n.OffsetsFit
  | [], _, _ => fun _ hm => nomatch hm
  | m :: ms, s, hms => by
    obtain ⟨hm, hms⟩ := List.forall_mem_cons.1 hms
    refine List.forall_mem_cons.2 ⟨?_, resolveMethods_fits h level ms _ hms⟩
    split
    · exact m.resolve_fits h
    · exact hm

theorem resolveClasses_fits : ∀ (cs : List Class) {env : Env}, env.Sound → env.AtTop →
    (∀ c ∈ cs, ∀ m ∈ c.methods, ∀ n ∈ m.nodes, n.OffsetsFit) →
    ∀ c ∈ resolveClasses env cs, ∀ m ∈ c.methods, ∀ n ∈ m.nodes, n.OffsetsFit
  | [], _, _, _, _ => fun _ hc => nomatch hc
  | c :: cs, env, h, ht, hcs => by
    obtain ⟨hc, hcs⟩ := List.forall_mem_cons.1 hcs
    exact List.forall_mem_cons.2 ⟨resolveMethods_fits (h.inClass ht c) _ c.methods _ hc,
      resolveClasses_fits cs (h.afterClass ht c) (ht.afterClass c) hcs⟩

/-- **The offsets in a resolved program fit**, if those it had before do. -/
theorem Program.resolve_fits {p : Program} (hp : ∀ n ∈ p.nodes, n.OffsetsFit) :
    ∀ n ∈ p.resolve.nodes, n.OffsetsFit := by
  obtain ⟨hcs, -, -⟩ := Program.forall_nodes.1 hp
  have hb := p.body.resolve_fits p.sound_mainEnv
  cases p with
  | expr body => exact Program.forall_nodes.2 ⟨(fun _ hc => nomatch hc), (fun _ hn => nomatch hn), hb⟩
  | letIn cs ds body =>
    exact Program.forall_nodes.2 ⟨resolveClasses_fits cs (Env.sound_initial _) ⟨[], rfl⟩ hcs,
      resolveLocals_fits ds (Program.sound_classEnv (.letIn cs ds body)), hb⟩

/-! ## Names -/

/-- The classes that can be instantiated have layouts in `k`. -/
def Env.KnownTo (env : Env) (k : Classes) : Prop :=
  ∀ c, (env.tables.lookup c).isSome → (env.instantiable c).isSome ∧ (k.layouts.lookup c).isSome

theorem Env.use_isSome {env : Env} {kind : UseKind} {x : Ident} {line : Nat} (h : env.useErrors kind x line = []) :
    (env.use x).entry.isSome := by
  unfold useErrors at h
  split at h
  · rename_i hx
    obtain ⟨e, he⟩ := Option.isSome_iff_exists.1 hx
    simp [use, he]
  · cases h

theorem Env.methodSignature_ne_incomplete {env : Env} {x m : Ident} {o me : Entry}
    (h : env.sendTarget x m = .ok (o, me)) : methodSignature (some me) ≠ .error .incomplete := by
  unfold Env.sendTarget at h
  split at h
  · cases h
  · split at h
    · split at h
      · split at h
        · rename_i hm
          cases h
          obtain ⟨n, ty, off⟩ := me
          cases ty with
          | method s => simp [methodSignature]
          | _ => cases hm
        · cases h
      · cases h
    · cases h

theorem Env.KnownTo.fieldsOf_ne_incomplete {env : Env} {k : Classes} (hk : env.KnownTo k) {c : Ident} {l : Nat}
    (h : env.newErrors c l = []) : k.fieldsOf c (env.instantiable c) ≠ .error .incomplete := by
  unfold Env.newErrors at h
  split at h
  · rename_i hsome
    obtain ⟨hinst, hlay⟩ := hk c hsome
    obtain ⟨e, he⟩ := Option.isSome_iff_exists.1 hinst
    obtain ⟨lay, hlay⟩ := Option.isSome_iff_exists.1 hlay
    unfold Classes.fieldsOf
    rw [he, hlay]
    simp
  · cases h

mutual

/-- **An expression whose names are all right can be checked once it is resolved.** -/
theorem Expr.resolve_checkable {env : Env} {k : Classes} (hk : env.KnownTo k) : ∀ e : Expr, e.nameErrors env = [] →
    ∀ n ∈ (e.resolve env).nodes, n.Checkable k
  | .int _ _, _ | .bool _ _, _ | .null _, _ => by simp [Expr.resolve, Expr.nodes, Expr.Checkable]
  | .binary _ _ a b, hn => by
    obtain ⟨ha, hb⟩ := List.append_eq_nil_iff.1 hn
    exact Expr.forall_nodes_binary.2 ⟨trivial, a.resolve_checkable hk ha, b.resolve_checkable hk hb⟩
  | .not _ a, hn => Expr.forall_nodes_not.2 ⟨trivial, a.resolve_checkable hk hn⟩
  | .cond _ c t e, hn => by
    obtain ⟨hct, he⟩ := List.append_eq_nil_iff.1 hn
    obtain ⟨hc, ht⟩ := List.append_eq_nil_iff.1 hct
    exact Expr.forall_nodes_cond.2
      ⟨trivial, c.resolve_checkable hk hc, t.resolve_checkable hk ht, e.resolve_checkable hk he⟩
  | .print _ a, hn => Expr.forall_nodes_print.2 ⟨trivial, a.resolve_checkable hk hn⟩
  | .id _ u, hn => fun n hm => by
    obtain rfl := List.mem_singleton.1 hm
    exact Env.use_isSome hn
  | .call _ u args, hn => by
    obtain ⟨hu, hargs⟩ := List.append_eq_nil_iff.1 hn
    exact Expr.forall_nodes_call.2 ⟨Env.use_isSome hu, resolveArgs_checkable hk args hargs⟩
  | .send l u m _ args, hn => by
    obtain ⟨hu, hargs⟩ := List.append_eq_nil_iff.1 hn
    have ih := resolveArgs_checkable hk args hargs
    unfold Env.sendErrors at hu
    simp only [Expr.resolve]
    cases ht : env.sendTarget u.id m with
    | ok p => exact Expr.forall_nodes_send.2 ⟨⟨rfl, Env.methodSignature_ne_incomplete ht⟩, ih⟩
    | error e =>
      rw [ht] at hu
      cases e <;> cases hu
  | .new _ c _ args, hn => by
    obtain ⟨hc, hargs⟩ := List.append_eq_nil_iff.1 hn
    exact Expr.forall_nodes_new.2 ⟨hk.fieldsOf_ne_incomplete hc, resolveArgs_checkable hk args hargs⟩

theorem resolveArgs_checkable {env : Env} {k : Classes} (hk : env.KnownTo k) : ∀ es : List Expr,
    argNameErrors env es = [] → ∀ n ∈ argNodes (resolveArgs env es), n.Checkable k
  | [], _ => fun _ hn => nomatch hn
  | e :: es, hn => by
    obtain ⟨he, hes⟩ := List.append_eq_nil_iff.1 hn
    exact forall_argNodes_cons.2 ⟨e.resolve_checkable hk he, resolveArgs_checkable hk es hes⟩

end

/-- A sound environment all of whose classes have layouts in `k`. -/
structure Env.SoundFor (env : Env) (k : Classes) : Prop extends env.Sound where
  laidOut : ∀ c, (env.tables.lookup c).isSome → (k.layouts.lookup c).isSome

namespace Env.SoundFor

variable {env : Env} {k : Classes}

theorem knownTo (h : env.SoundFor k) : env.KnownTo k := fun c hc =>
  ⟨by rw [instantiable, if_pos hc]; exact h.known c hc, h.laidOut c hc⟩

theorem declare (h : env.SoundFor k) (x : Ident) (ty : Ty) : (env.declare x ty).SoundFor k :=
  ⟨h.toSound.declare x ty, by
    rw [show (env.declare x ty).tables = env.tables from insert_tables _ _ _]
    exact h.laidOut⟩

theorem inRoutine (h : env.SoundFor k) (ps : List Param) : (env.inRoutine ps).SoundFor k :=
  ⟨h.toSound.inRoutine ps, by
    rw [show (env.inRoutine ps).tables = env.tables from bindParams_tables ps _ _]
    exact h.laidOut⟩

theorem after (h : env.SoundFor k) (d : Dec) : (env.after d).SoundFor k := by
  cases d with
  | var _ x ty _ => exact h.declare x ty
  | func _ x ret ps _ _ => exact h.declare x _

theorem afterAll : ∀ (ds : List Dec) {env : Env}, env.SoundFor k → (env.afterAll ds).SoundFor k
  | [], _, h => h
  | d :: ds, _, h => afterAll ds (h.after d)

theorem afterClass (h : env.SoundFor k) (ht : env.AtTop) {c : Class} (hc : (k.layouts.lookup c.id).isSome) :
    (env.afterClass c).SoundFor k :=
  ⟨h.toSound.afterClass ht c, fun d hd => by
    by_cases hdc : d = c.id
    · rw [hdc]
      exact hc
    · have hb : (d == c.id) = false := by simpa using hdc
      simp only [Env.afterClass, List.lookup_cons, hb] at hd
      exact h.laidOut d hd⟩

theorem inClass (h : env.SoundFor k) (ht : env.AtTop) {c : Class} (hc : (k.layouts.lookup c.id).isSome) :
    (env.inClass c).SoundFor k :=
  ⟨h.toSound.inClass ht c, (h.afterClass ht hc).laidOut⟩

theorem afterClasses : ∀ (cs : List Class) {env : Env}, env.SoundFor k → env.AtTop →
    (∀ c ∈ cs, (k.layouts.lookup c.id).isSome) → (cs.foldl Env.afterClass env).SoundFor k
  | [], _, h, _, _ => h
  | c :: cs, _, h, ht, hcs => by
    obtain ⟨hc, hcs⟩ := List.forall_mem_cons.1 hcs
    exact afterClasses cs (h.afterClass ht hc) (ht.afterClass c) hcs

end Env.SoundFor

mutual

theorem Dec.resolve_checkable {k : Classes} : ∀ (d : Dec) {env : Env}, env.SoundFor k → d.nameErrors env = [] →
    ∀ n ∈ (d.resolve env).nodes, n.Checkable k
  | .var _ _ _ v, _, h, hn => by
    obtain ⟨hv, -⟩ := List.append_eq_nil_iff.1 (List.append_eq_nil_iff.1 hn).1
    exact v.resolve_checkable h.knownTo hv
  | .func _ x ret ps ls body, _, h, hn => by
    obtain ⟨hls, hb⟩ := List.append_eq_nil_iff.1 hn
    obtain ⟨-, hls⟩ := List.append_eq_nil_iff.1 hls
    have hi := (h.declare x (.function (signatureOf ps ret))).inRoutine ps
    exact Dec.forall_nodes_func.2
      ⟨resolveLocals_checkable ls hi hls, body.resolve_checkable (hi.afterAll ls).knownTo hb⟩

theorem resolveLocals_checkable {k : Classes} : ∀ (ds : List Dec) {env : Env}, env.SoundFor k →
    localNameErrors env ds = [] → ∀ n ∈ localNodes (resolveLocals env ds), n.Checkable k
  | [], _, _, _ => fun _ hn => nomatch hn
  | d :: ds, _, h, hn => by
    obtain ⟨hd, hds⟩ := List.append_eq_nil_iff.1 hn
    exact forall_localNodes_cons.2 ⟨d.resolve_checkable h hd, resolveLocals_checkable ds (h.after d) hds⟩

end

theorem Method.resolve_checkable {env : Env} {k : Classes} (h : env.SoundFor k) (m : Method)
    (hn : m.nameErrors env = []) : ∀ n ∈ (m.resolve env).nodes, n.Checkable k := by
  obtain ⟨hls, hb⟩ := List.append_eq_nil_iff.1 hn
  obtain ⟨-, hls⟩ := List.append_eq_nil_iff.1 hls
  have hi := h.inRoutine m.params
  exact Method.forall_nodes.2
    ⟨resolveLocals_checkable m.locals hi hls, m.body.resolve_checkable (hi.afterAll m.locals).knownTo hb⟩

/-- The methods of a class are all accepted, and so resolved. -/
theorem resolveMethods_checkable {inner : Env} {k : Classes} (h : inner.SoundFor k) (env : Env) :
    ∀ (ms : List Method) (s : Members), methodsErrors env s ms = [] → bodiesErrors inner (env.level + 1) s ms = [] →
    ∀ m ∈ resolveMethods inner (env.level + 1) s ms, ∀ n ∈ m.nodes, n.Checkable k
  | [], _, _, _ => fun _ hm => nomatch hm
  | m :: ms, s, hn, hb => by
    obtain ⟨hm, hms⟩ := List.append_eq_nil_iff.1 hn
    obtain ⟨-, hm⟩ := List.append_eq_nil_iff.1 hm
    obtain ⟨hbm, hbms⟩ := List.append_eq_nil_iff.1 hb
    refine List.forall_mem_cons.2 ⟨?_, resolveMethods_checkable h env ms _ hms hbms⟩
    unfold Members.methodErrors at hm
    split at hm
    · rename_i ho
      simp only [ho] at hbm ⊢
      exact m.resolve_checkable h hbm
    all_goals cases hm

theorem resolveClasses_checkable {k : Classes} : ∀ (cs : List Class) {env : Env}, env.SoundFor k → env.AtTop →
    (∀ c ∈ cs, (k.layouts.lookup c.id).isSome) → classesNameErrors env cs = [] →
    ∀ c ∈ resolveClasses env cs, ∀ m ∈ c.methods, ∀ n ∈ m.nodes, n.Checkable k
  | [], _, _, _, _, _ => fun _ hc => nomatch hc
  | c :: cs, env, h, ht, hcs, hn => by
    obtain ⟨hk, hcs⟩ := List.forall_mem_cons.1 hcs
    obtain ⟨hc, hns⟩ := List.append_eq_nil_iff.1 hn
    obtain ⟨hc, hb⟩ := List.append_eq_nil_iff.1 hc
    obtain ⟨-, hm⟩ := List.append_eq_nil_iff.1 hc
    exact List.forall_mem_cons.2 ⟨resolveMethods_checkable (h.inClass ht hk) env c.methods _ hm hb,
      resolveClasses_checkable cs (h.afterClass ht hk) (ht.afterClass c) hcs hns⟩

/-- Every class of a program gets a layout. -/
theorem lookup_layouts_afterClasses {d : Ident} : ∀ (cs : List Class) {env : Env},
    (env.layouts.lookup d).isSome ∨ (∃ c ∈ cs, c.id = d) → ((cs.foldl Env.afterClass env).layouts.lookup d).isSome
  | [], _, h => h.resolve_right fun ⟨_, hc, _⟩ => nomatch hc
  | c :: cs, env, h => by
    refine lookup_layouts_afterClasses cs ?_
    rcases h with h | ⟨b, hb, rfl⟩
    · exact .inl (lookup_cons_isSome h)
    · rcases List.mem_cons.1 hb with rfl | hb
      · exact .inl (by simp [Env.afterClass])
      · exact .inr ⟨b, hb, rfl⟩

/-- What is known of the classes of a program when all of them are declared. -/
theorem Program.lookup_layouts {p : Program} {c : Class} (hc : c ∈ p.classes) :
    (p.mainEnv.layouts.lookup c.id).isSome := by
  rw [mainEnv, (Env.afterAll_known _ _).1]
  exact lookup_layouts_afterClasses p.classes (.inr ⟨c, hc, rfl⟩)

/-- **Every node of a program whose names are all right can be checked once it is resolved.** -/
theorem Program.resolve_checkable {p : Program} {k : Classes} (hk : ∀ c ∈ p.classes, (k.layouts.lookup c.id).isSome)
    (hn : p.nameErrors = []) : ∀ n ∈ p.resolve.nodes, n.Checkable k := by
  obtain ⟨hn, hb⟩ := List.append_eq_nil_iff.1 hn
  obtain ⟨hcs, hds⟩ := List.append_eq_nil_iff.1 hn
  have hinitial : p.initialEnv.SoundFor k := ⟨Env.sound_initial _, fun _ hc => nomatch hc⟩
  have hclass : p.classEnv.SoundFor k := hinitial.afterClasses p.classes ⟨[], rfl⟩ hk
  have hbody := p.body.resolve_checkable (hclass.afterAll p.decs).knownTo hb
  cases p with
  | expr body => exact Program.forall_nodes.2 ⟨(fun _ hc => nomatch hc), (fun _ hm => nomatch hm), hbody⟩
  | letIn cs ds body =>
    exact Program.forall_nodes.2
      ⟨resolveClasses_checkable cs hinitial ⟨[], rfl⟩ hk hcs, resolveLocals_checkable ds hclass hds, hbody⟩

theorem supersFirst_of_nameErrors : ∀ (cs : List Class) {env : Env} {before : List Class}, Lists env.tables before →
    classesNameErrors env cs = [] →
    ∀ pre c post, resolveClasses env cs = pre ++ c :: post → ∀ s ∈ c.super, ∃ d ∈ before ++ pre, d.id = s
  | [], _, _, _, _, pre, c, post, he => by simp [resolveClasses] at he
  | c :: cs, env, before, h, hn, pre, d, post, he => by
    obtain ⟨hc, hcs⟩ := List.append_eq_nil_iff.1 hn
    cases pre with
    | nil =>
      obtain ⟨rfl, -⟩ : c.resolve env = d ∧ resolveClasses (env.afterClass c) cs = post := by
        simpa [resolveClasses] using he
      intro s hs
      have hsup : c.superErrors env = [] := by
        simp only [Class.nameErrors, List.append_eq_nil_iff] at hc
        exact hc.1.1.1.1
      unfold Class.superErrors at hsup
      rw [show c.super = some s from hs] at hsup
      simp only at hsup
      split at hsup
      · rw [List.append_nil]
        exact (h s).1 ‹_›
      · cases hsup
    | cons b pre =>
      obtain ⟨rfl, hp⟩ : c.resolve env = b ∧ resolveClasses (env.afterClass c) cs = pre ++ d :: post := by
        simpa [resolveClasses] using he
      intro s hs
      obtain ⟨x, hx, hid⟩ := supersFirst_of_nameErrors cs (h.cons c _) hcs pre d post hp s hs
      simp only [List.mem_append, List.mem_singleton] at hx
      rcases hx with (hx | rfl) | hx
      · exact ⟨x, by simp [hx], hid⟩
      · exact ⟨x.resolve env, by simp, hid⟩
      · exact ⟨x, by simp [hx], hid⟩

/-- **Resolving a program whose names are all right leaves nothing open.** -/
theorem Program.resolve_complete {p : Program} (hn : p.nameErrors = []) :
    (∀ n ∈ p.resolve.nodes, n.Complete) ∧ p.resolve.SupersFirst := by
  refine ⟨fun n hm => (resolve_checkable (k := ⟨.empty, p.mainEnv.layouts⟩) (fun c => lookup_layouts) hn n hm).complete,
    ?_⟩
  obtain ⟨hn, -⟩ := List.append_eq_nil_iff.1 hn
  cases p with
  | expr body => exact fun pre c post he => by simp [resolve, classes] at he
  | letIn cs ds body => exact supersFirst_of_nameErrors cs Lists.nil (List.append_eq_nil_iff.1 hn).1

end FoolLang
