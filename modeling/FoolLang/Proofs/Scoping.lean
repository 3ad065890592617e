import FoolLang.Proofs.Uses
import FoolLang.Proofs.Visible
/-!
# Scoping — expressions and declarations are scoped exactly if their names are all right

An environment shows a view when it finds the same entries, classes and offsets (`Env.Shows`); what a program declares
keeps it so.  Then a construct is scoped if nothing is wrong with its names, and as it is resolved
(`Expr.scoped_iff`, `Dec.scoped_iff`).
-/
namespace FoolLang

/-! ## Offsets in order -/

theorem declOffset_succ (n : Nat) : wrapOffset (declOffset n - 1) = declOffset (n + 1) := by
  have hcast : (-2 - ((n + 1 : Nat) : Int)) = -2 - (n : Int) + -1 := by omega
  rw [declOffset, declOffset, hcast, Int.sub_eq_add_neg]
  unfold wrapOffset
  rw [Int32.ofInt_add, Int32.ofInt_toInt, ← Int32.ofInt_add]

theorem paramOffset_succ (n : Nat) : wrapOffset (paramOffset n + 1) = paramOffset (n + 1) := by
  rw [paramOffset, paramOffset, Int.natCast_succ]
  unfold wrapOffset
  rw [Int32.ofInt_add, Int32.ofInt_toInt, ← Int32.ofInt_add]

/-! ## What an environment shows -/

/-- An environment finds what is visible. -/
structure Env.Shows (env : Env) (V : View) : Prop where
  names : ∀ x, env.lookup x = V.visible.lookup x
  level : env.level = V.level
  next : env.next = declOffset V.count
  classNames : env.classNames = V.classNames
  isOpen : env.scopes ≠ []
  tables : ∀ c, V.Declared c → env.tables.lookup c = some (memberEntries V.classes c)
  declared : ∀ c, (env.tables.lookup c).isSome → V.Declared c
  globals : ∀ c, V.Declared c → env.globals.lookup c = (classEntries V.classes).lookup c

theorem lookup_classEntries_isSome {c : Ident} : ∀ {ks : List Class},
    ((classEntries ks).lookup c).isSome ↔ c ∈ ks.map Class.id
  | [] => by simp [classEntries]
  | k :: ks => by
    rw [classEntries, List.lookup_cons]
    by_cases hc : c = k.id
    · simp [hc]
    · have hb : (c == k.id) = false := by simpa using hc
      simp [hb, hc, lookup_classEntries_isSome]

namespace Env

variable {env : Env} {V : View} {x : Ident}

theorem lookup_insert (h : env.scopes ≠ []) (y : Ident) (e : Entry) :
    (env.insert y e).lookup x = if x = y then some e else env.lookup x := by
  unfold insert lookup
  split
  · contradiction
  · rename_i s ss hs
    rw [hs, List.findSome?_cons, List.findSome?_cons, List.lookup_cons]
    by_cases hx : x = y
    · simp [hx]
    · have hb : (x == y) = false := by simpa using hx
      simp [hb, hx]

theorem declaredHere_insert (h : env.scopes ≠ []) (y : Ident) (e : Entry) :
    (env.insert y e).declaredHere x = (decide (x = y) || env.declaredHere x) := by
  cases hs : env.scopes with
  | nil => exact absurd hs h
  | cons s ss =>
    simp only [insert, declaredHere, hs, List.lookup_cons]
    by_cases hx : x = y
    · simp [hx]
    · have hb : (x == y) = false := by simpa using hx
      simp [hb, hx]

theorem globals_insert_of_new {c y : Ident} (hc : (env.globals.lookup c).isSome) (hy : env.declaredHere y = false)
    (e : Entry) : (env.insert y e).globals.lookup c = env.globals.lookup c := by
  unfold insert
  unfold declaredHere at hy
  split
  · rfl
  · rename_i s ss hs
    rw [hs] at hy
    unfold globals at hc ⊢
    rw [hs] at hc ⊢
    cases ss with
    | cons t ts => simp [List.getLast?_cons_cons]
    | nil =>
      have hcy : c ≠ y := by
        rintro rfl
        dsimp only at hy
        rw [List.getLast?_singleton, Option.getD_some, hy] at hc
        cases hc
      exact lookup_cons_of_ne hcy _ _

namespace Shows

theorem insert (h : env.Shows V) (hx : env.declaredHere x = false) (e : Entry) :
    (env.insert x e).Shows (V.bind x e) where
  names y := by
    rw [lookup_insert h.isOpen, h.names]
    show _ = ((x, e) :: V.visible).lookup y
    by_cases hy : y = x
    · simp [hy]
    · rw [if_neg hy, lookup_cons_of_ne hy]
  level := (insert_level env x e).trans h.level
  next := (insert_next env x e).trans h.next
  classNames := by
    unfold Env.insert
    split <;> exact h.classNames
  isOpen := by
    unfold Env.insert
    split
    · exact h.isOpen
    · simp
  tables c hc := by
    rw [insert_tables]
    exact h.tables c hc
  declared c hc := by
    rw [insert_tables] at hc
    exact h.declared c hc
  globals c hc := by
    have hsome : (env.globals.lookup c).isSome := by
      rw [h.globals c hc]
      exact lookup_classEntries_isSome.2 hc
    rw [globals_insert_of_new hsome hx]
    exact h.globals c hc

theorem declare (h : env.Shows V) (hx : env.declaredHere x = false) (ty : Ty) :
    (env.declare x ty).Shows (V.declare x ty) := by
  have hi := h.insert hx ⟨V.level, ty, declOffset V.count⟩
  rw [← h.level, ← h.next] at hi
  unfold Env.declare View.declare
  rw [← h.level, ← h.next]
  refine ⟨hi.names, hi.level, ?_, hi.classNames, hi.isOpen, hi.tables, hi.declared, hi.globals⟩
  rw [h.next]
  exact declOffset_succ V.count

theorem enter (h : env.Shows V) : env.enter.Shows V.enter where
  names x := by
    rw [← show V.visible = V.enter.visible from rfl, ← h.names x]
    rfl
  level := congrArg Nat.succ h.level
  next := show (-2 : Int) = declOffset 0 by decide
  classNames := h.classNames
  isOpen := List.cons_ne_nil _ _
  tables := h.tables
  declared := h.declared
  globals c hc := by
    rw [← show classEntries V.classes = classEntries V.enter.classes from rfl, ← h.globals c hc]
    cases hs : env.scopes with
    | nil => exact absurd hs h.isOpen
    | cons s ss => simp [Env.globals, Env.enter, hs, List.getLast?_cons_cons]

end Shows

/-! ## New names -/

/-- Different names without entries in the innermost scope. -/
def New (env : Env) (xs : List Ident) : Prop := xs.Nodup ∧ ∀ x ∈ xs, env.declaredHere x = false

theorem new_cons (h : env.scopes ≠ []) {xs : List Ident} (e : Entry) :
    env.New (x :: xs) ↔ env.declaredHere x = false ∧ (env.insert x e).New xs := by
  unfold New
  simp only [List.nodup_cons, List.forall_mem_cons, declaredHere_insert h, Bool.or_eq_false_iff,
    decide_eq_false_iff_not]
  constructor
  · rintro ⟨⟨hx, hxs⟩, hhere, hall⟩
    refine ⟨hhere, hxs, fun y hy => ⟨?_, hall y hy⟩⟩
    rintro rfl
    exact hx hy
  · rintro ⟨hhere, hxs, hall⟩
    exact ⟨⟨fun hx => (hall x hx).1 rfl, hxs⟩, hhere, fun y hy => (hall y hy).2⟩

theorem new_cons_dec (h : env.scopes ≠ []) {xs : List Ident} (d : Dec) :
    env.New (d.id :: xs) ↔ env.declaredHere d.id = false ∧ (env.after d).New xs := by
  cases d <;> exact new_cons h _

theorem insert_isOpen (h : env.scopes ≠ []) (x : Ident) (e : Entry) : (env.insert x e).scopes ≠ [] := by
  unfold insert
  split
  · exact h
  · exact List.cons_ne_nil _ _

theorem insert_classNames (env : Env) (x : Ident) (e : Entry) : (env.insert x e).classNames = env.classNames := by
  unfold insert
  split <;> rfl

theorem after_isOpen (h : env.scopes ≠ []) (d : Dec) : (env.after d).scopes ≠ [] := by
  cases d <;> exact insert_isOpen h _ _

theorem new_params {ys : List Ident} : ∀ (ps : List Param) {env : Env} {offset : Int}, env.scopes ≠ [] →
    (env.New (ps.map Param.id ++ ys) ↔ env.New (ps.map Param.id) ∧ (env.bindParams offset ps).New ys)
  | [], env, _, _ => (and_iff_right ⟨List.nodup_nil, nofun⟩).symm
  | p :: ps, env, offset, h => by
    have hp := insert_isOpen h p.id ⟨env.level, p.ty, offset⟩
    rw [List.map_cons, List.cons_append, new_cons h, new_cons h, new_params ps hp, and_assoc]
    rfl

theorem new_enter {xs : List Ident} : env.enter.New xs ↔ xs.Nodup := and_iff_left fun _ _ => rfl

/-! ## Parameters -/

theorem typeNameErrors_eq_nil (h : env.classNames = V.classNames) {ty : Ty} {l : Nat} :
    env.typeNameErrors ty l = [] ↔ V.Names ty := by
  unfold typeNameErrors View.Names
  rw [h]
  cases ty <;> simp

theorem paramErrors_eq_nil : ∀ (ps : List Param) {env : Env} {offset : Int}, env.classNames = V.classNames →
    env.scopes ≠ [] →
    (env.paramErrors offset ps = [] ↔ (∀ p ∈ ps, V.Names p.ty) ∧ env.New (ps.map Param.id))
  | [], _, _, _, _ => iff_of_true rfl ⟨nofun, List.nodup_nil, nofun⟩
  | p :: ps, env, offset, hc, h => by
    have hp := insert_isOpen h p.id ⟨env.level, p.ty, offset⟩
    have hcp := (insert_classNames env p.id ⟨env.level, p.ty, offset⟩).trans hc
    rw [paramErrors, List.append_eq_nil_iff, List.append_eq_nil_iff, typeNameErrors_eq_nil hc, declareErrors_eq_nil,
      paramErrors_eq_nil ps hcp hp, List.forall_mem_cons, List.map_cons, new_cons h]
    exact and_and_and_comm

namespace Shows

theorem bindParams : ∀ (ps : List Param) {env : Env} {V : View} (n : Nat), env.Shows V → env.New (ps.map Param.id) →
    (env.bindParams (paramOffset n) ps).Shows (V.bindParams n ps)
  | [], _, _, _, h, _ => h
  | p :: ps, env, V, n, h, hn => by
    obtain ⟨hp, hps⟩ := (new_cons h.isOpen _).1 hn
    have hi := h.insert hp ⟨env.level, p.ty, paramOffset n⟩
    have ih := bindParams ps (n + 1) hi hps
    rw [← paramOffset_succ] at ih
    rw [View.bindParams, ← h.level]
    exact ih

theorem inRoutine (h : env.Shows V) {params : List Param} (hp : (params.map Param.id).Nodup) :
    (env.inRoutine params).Shows (V.inRoutine params) := by
  have hone : paramOffset 0 = 1 := by decide
  have hb := h.enter.bindParams params 0 (new_enter.2 hp)
  rwa [hone] at hb

theorem after (h : env.Shows V) {d : Dec} (hd : env.declaredHere d.id = false) : (env.after d).Shows (V.after d) := by
  cases d <;> exact h.declare hd _

theorem afterAll : ∀ (ds : List Dec) {env : Env} {V : View}, env.Shows V → env.New (ds.map Dec.id) →
    (env.afterAll ds).Shows (V.afterAll ds)
  | [], _, _, h, _ => h
  | d :: ds, _, _, h, hn =>
    have hd := (new_cons_dec h.isOpen d).1 hn
    afterAll ds (h.after hd.1) hd.2

end Shows

end Env

/-! ## Expressions -/

section

variable {env : Env} {V : View}

namespace Env.Shows

theorem use_iff (h : env.Shows V) {kind : UseKind} {x : Ident} {l : Nat} {u : Use} :
    (∃ e, V.visible.lookup x = some e ∧ u = ⟨x, V.level, some e⟩) ↔ env.useErrors kind x l = [] ∧ u = env.use x := by
  unfold useErrors use
  rw [← h.names, ← h.level]
  cases env.lookup x <;> simp

theorem new_iff (h : env.Shows V) {c : Ident} {l : Nat} {entry : Option Entry} :
    (∃ e, (classEntries V.classes).lookup c = some e ∧ entry = some e) ↔
      env.newErrors c l = [] ∧ entry = env.instantiable c := by
  unfold newErrors instantiable
  by_cases hc : V.Declared c
  · have ht := h.tables c hc
    rw [ht, ← h.globals c hc]
    have hsome : (env.globals.lookup c).isSome := by
      rw [h.globals c hc]
      exact lookup_classEntries_isSome.2 hc
    obtain ⟨e, he⟩ := Option.isSome_iff_exists.1 hsome
    simp [he]
  · have ht : ¬ (env.tables.lookup c).isSome := fun hs => hc (h.declared c hs)
    have hn : ¬ ((classEntries V.classes).lookup c).isSome := fun hs => hc (lookup_classEntries_isSome.1 hs)
    rw [if_neg ht]
    simp only [Option.not_isSome_iff_eq_none] at hn
    simp [hn]

theorem sendTarget_iff (h : env.Shows V) {x m : Ident} {o me : Entry} : env.sendTarget x m = .ok (o, me) ↔
    ∃ c, V.visible.lookup x = some o ∧ o.ty = .ref c ∧ V.Declared c ∧
      (memberEntries V.classes c).lookup m = some me ∧ me.ty.isMethod = true := by
  constructor
  · intro ht
    unfold sendTarget at ht
    split at ht
    · cases ht
    · rename_i e he
      split at ht
      · rename_i c hc
        split at ht
        · rename_i m' hm'
          split at ht
          · rename_i hmethod
            cases ht
            obtain ⟨T, hT, hm⟩ := Option.bind_eq_some_iff.1 hm'
            have hd := h.declared c (Option.isSome_iff_exists.2 ⟨T, hT⟩)
            obtain rfl : memberEntries V.classes c = T := Option.some.inj ((h.tables c hd).symm.trans hT)
            exact ⟨c, (h.names x).symm.trans he, hc, hd, hm, hmethod⟩
          · cases ht
        · cases ht
      · cases ht
  · rintro ⟨c, ho, hty, hd, hm, hmethod⟩
    unfold sendTarget
    rw [h.names, ho]
    dsimp only
    rw [hty]
    dsimp only
    rw [h.tables c hd, Option.bind_some, hm]
    dsimp only
    rw [if_pos hmethod]

end Env.Shows

theorem Env.sendErrors_eq_nil {x m : Ident} {l : Nat} :
    env.sendErrors x m l = [] ↔ ∃ o me, env.sendTarget x m = .ok (o, me) := by
  unfold Env.sendErrors
  cases env.sendTarget x m with
  | ok t => exact iff_of_true rfl ⟨t.1, t.2, rfl⟩
  | error e => cases e <;> simp

mutual

/-- **An expression is scoped exactly if its names are all right, and as it is resolved.** -/
theorem Expr.scoped_iff (h : env.Shows V) : ∀ (e : Expr) {e' : Expr},
    e.Scoped V e' ↔ e.nameErrors env = [] ∧ e' = e.resolve env
  | .int l n, e' => by
    refine ⟨fun hs => ?_, ?_⟩
    · cases hs
      exact ⟨rfl, rfl⟩
    · rintro ⟨-, rfl⟩
      exact .int l n
  | .bool l b, e' => by
    refine ⟨fun hs => ?_, ?_⟩
    · cases hs
      exact ⟨rfl, rfl⟩
    · rintro ⟨-, rfl⟩
      exact .bool l b
  | .null l, e' => by
    refine ⟨fun hs => ?_, ?_⟩
    · cases hs
      exact ⟨rfl, rfl⟩
    · rintro ⟨-, rfl⟩
      exact .null l
  | .binary l op a b, e' => by
    rw [Expr.nameErrors, Expr.resolve, List.append_eq_nil_iff]
    refine ⟨fun hs => ?_, ?_⟩
    · cases hs with
      | binary left right =>
        obtain ⟨ha, rfl⟩ := (Expr.scoped_iff h a).1 left
        obtain ⟨hb, rfl⟩ := (Expr.scoped_iff h b).1 right
        exact ⟨⟨ha, hb⟩, rfl⟩
    · rintro ⟨⟨ha, hb⟩, rfl⟩
      exact .binary ((Expr.scoped_iff h a).2 ⟨ha, rfl⟩) ((Expr.scoped_iff h b).2 ⟨hb, rfl⟩)
  | .not l a, e' => by
    rw [Expr.nameErrors, Expr.resolve]
    refine ⟨fun hs => ?_, ?_⟩
    · cases hs with
      | not arg =>
        obtain ⟨ha, rfl⟩ := (Expr.scoped_iff h a).1 arg
        exact ⟨ha, rfl⟩
    · rintro ⟨ha, rfl⟩
      exact .not ((Expr.scoped_iff h a).2 ⟨ha, rfl⟩)
  | .cond l t y n, e' => by
    rw [Expr.nameErrors, Expr.resolve, List.append_eq_nil_iff, List.append_eq_nil_iff]
    refine ⟨fun hs => ?_, ?_⟩
    · cases hs with
      | cond test yes no =>
        obtain ⟨ht, rfl⟩ := (Expr.scoped_iff h t).1 test
        obtain ⟨hy, rfl⟩ := (Expr.scoped_iff h y).1 yes
        obtain ⟨hn, rfl⟩ := (Expr.scoped_iff h n).1 no
        exact ⟨⟨⟨ht, hy⟩, hn⟩, rfl⟩
    · rintro ⟨⟨⟨ht, hy⟩, hn⟩, rfl⟩
      exact .cond ((Expr.scoped_iff h t).2 ⟨ht, rfl⟩) ((Expr.scoped_iff h y).2 ⟨hy, rfl⟩)
        ((Expr.scoped_iff h n).2 ⟨hn, rfl⟩)
  | .print l a, e' => by
    rw [Expr.nameErrors, Expr.resolve]
    refine ⟨fun hs => ?_, ?_⟩
    · cases hs with
      | print arg =>
        obtain ⟨ha, rfl⟩ := (Expr.scoped_iff h a).1 arg
        exact ⟨ha, rfl⟩
    · rintro ⟨ha, rfl⟩
      exact .print ((Expr.scoped_iff h a).2 ⟨ha, rfl⟩)
  | .id l u, e' => by
    rw [Expr.nameErrors, Expr.resolve]
    refine ⟨fun hs => ?_, ?_⟩
    · cases hs with
      | id declared =>
        obtain ⟨hu, huse⟩ := h.use_iff.1 ⟨_, declared, rfl⟩
        exact ⟨hu, by rw [huse]⟩
    · rintro ⟨hu, rfl⟩
      obtain ⟨e, he, huse⟩ := h.use_iff.2 ⟨hu, rfl⟩
      rw [huse]
      exact .id he
  | .call l u as, e' => by
    rw [Expr.nameErrors, Expr.resolve, List.append_eq_nil_iff]
    refine ⟨fun hs => ?_, ?_⟩
    · cases hs with
      | call declared args =>
        obtain ⟨hu, huse⟩ := h.use_iff.1 ⟨_, declared, rfl⟩
        obtain ⟨ha, rfl⟩ := (argsScoped_iff h as).1 args
        exact ⟨⟨hu, ha⟩, by rw [huse]⟩
    · rintro ⟨⟨hu, ha⟩, rfl⟩
      obtain ⟨e, he, huse⟩ := h.use_iff.2 ⟨hu, rfl⟩
      rw [huse]
      exact .call he ((argsScoped_iff h as).2 ⟨ha, rfl⟩)
  | .send l u m entry as, e' => by
    rw [Expr.nameErrors, Expr.resolve, List.append_eq_nil_iff, Env.sendErrors_eq_nil]
    refine ⟨fun hs => ?_, ?_⟩
    · cases hs with
      | send object type declared member method args =>
        have ht := h.sendTarget_iff.2 ⟨_, object, type, declared, member, method⟩
        obtain ⟨ha, rfl⟩ := (argsScoped_iff h as).1 args
        exact ⟨⟨⟨_, _, ht⟩, ha⟩, by rw [ht, h.level]⟩
    · rintro ⟨⟨⟨o, me, ht⟩, ha⟩, rfl⟩
      obtain ⟨c, object, type, declared, member, method⟩ := h.sendTarget_iff.1 ht
      rw [ht, h.level]
      exact .send object type declared member method ((argsScoped_iff h as).2 ⟨ha, rfl⟩)
  | .new l c entry as, e' => by
    rw [Expr.nameErrors, Expr.resolve, List.append_eq_nil_iff]
    refine ⟨fun hs => ?_, ?_⟩
    · cases hs with
      | new declared args =>
        obtain ⟨hc, hentry⟩ := h.new_iff.1 ⟨_, declared, rfl⟩
        obtain ⟨ha, rfl⟩ := (argsScoped_iff h as).1 args
        exact ⟨⟨hc, ha⟩, by rw [hentry]⟩
    · rintro ⟨⟨hc, ha⟩, rfl⟩
      obtain ⟨e, he, hentry⟩ := h.new_iff.2 ⟨hc, rfl⟩
      rw [hentry]
      exact .new he ((argsScoped_iff h as).2 ⟨ha, rfl⟩)

theorem argsScoped_iff (h : env.Shows V) : ∀ (es : List Expr) {es' : List Expr},
    ArgsScoped V es es' ↔ argNameErrors env es = [] ∧ es' = resolveArgs env es
  | [], es' => by
    refine ⟨fun hs => ?_, ?_⟩
    · cases hs
      exact ⟨rfl, rfl⟩
    · rintro ⟨-, rfl⟩
      exact .nil
  | e :: es, es' => by
    rw [argNameErrors, resolveArgs, List.append_eq_nil_iff]
    refine ⟨fun hs => ?_, ?_⟩
    · cases hs with
      | cons head tail =>
        obtain ⟨he, rfl⟩ := (Expr.scoped_iff h e).1 head
        obtain ⟨hes, rfl⟩ := (argsScoped_iff h es).1 tail
        exact ⟨⟨he, hes⟩, rfl⟩
    · rintro ⟨⟨he, hes⟩, rfl⟩
      exact .cons ((Expr.scoped_iff h e).2 ⟨he, rfl⟩) ((argsScoped_iff h es).2 ⟨hes, rfl⟩)

end

end

/-! ## Declarations -/

theorem new_of_localNameErrors : ∀ (ds : List Dec) {env : Env}, env.scopes ≠ [] → localNameErrors env ds = [] →
    env.New (ds.map Dec.id)
  | [], _, _, _ => ⟨List.nodup_nil, nofun⟩
  | d :: ds, env, h, he => by
    obtain ⟨hd, hds⟩ := List.append_eq_nil_iff.1 he
    refine (Env.new_cons_dec h d).2 ⟨?_, new_of_localNameErrors ds (Env.after_isOpen h d) hds⟩
    cases d with
    | var l x ty v =>
      rw [Dec.nameErrors, List.append_eq_nil_iff] at hd
      exact Env.declareErrors_eq_nil.1 hd.2
    | func l x ret params locals body =>
      simp only [Dec.nameErrors, List.append_eq_nil_iff] at hd
      exact Env.declareErrors_eq_nil.1 hd.1.1.1.2

/-- What is wrong with the names in a routine. -/
def routineNameErrors (env : Env) (params : List Param) (locals : List Dec) (body : Expr) : List NameError :=
  env.enter.paramErrors 1 params ++ localNameErrors (env.inRoutine params) locals ++
    body.nameErrors ((env.inRoutine params).afterAll locals)

theorem routineScoped_iff {env : Env} {V : View} (h : env.Shows V) (params : List Param) {ds ds' : List Dec} (b : Expr)
    {b' : Expr} (hds : ∀ {env : Env} {V : View}, env.Shows V → env.New (ds.map Dec.id) →
      (LocalsScoped V ds ds' ↔ localNameErrors env ds = [] ∧ ds' = resolveLocals env ds)) :
    RoutineScoped V params ds b ds' b' ↔ routineNameErrors env params ds b = [] ∧
      ds' = resolveLocals (env.inRoutine params) ds ∧ b' = b.resolve ((env.inRoutine params).afterAll ds) := by
  have hopen := h.enter.isOpen
  unfold routineNameErrors
  have hclasses : env.enter.classNames = V.classNames := h.classNames
  rw [List.append_eq_nil_iff, List.append_eq_nil_iff, Env.paramErrors_eq_nil params hclasses hopen]
  refine ⟨fun hs => ?_, ?_⟩
  · cases hs with
    | mk distinct types locals body =>
      obtain ⟨hps, hlocals⟩ := (Env.new_params params hopen).1 (Env.new_enter.2 distinct)
      have hin := h.inRoutine hps.1
      obtain ⟨hl, rfl⟩ := (hds hin hlocals).1 locals
      obtain ⟨hb, rfl⟩ := (b.scoped_iff (hin.afterAll ds hlocals)).1 body
      exact ⟨⟨⟨⟨types, hps⟩, hl⟩, hb⟩, rfl, rfl⟩
  · rintro ⟨⟨⟨⟨types, hps⟩, hl⟩, hb⟩, rfl, rfl⟩
    have hin := h.inRoutine hps.1
    have hlocals := new_of_localNameErrors ds hin.isOpen hl
    have distinct := (Env.new_params params hopen).2 ⟨hps, hlocals⟩
    exact .mk distinct.1 types ((hds hin hlocals).2 ⟨hl, rfl⟩)
      ((b.scoped_iff (hin.afterAll ds hlocals)).2 ⟨hb, rfl⟩)

theorem Dec.nameErrors_func (env : Env) (l : Nat) (x : Ident) (ret : Ty) (params : List Param) (ds : List Dec)
    (b : Expr) :
    Dec.nameErrors env (.func l x ret params ds b) = env.typeNameErrors ret l ++ env.declareErrors .func x l ++
      routineNameErrors (env.declare x (.function (signatureOf params ret))) params ds b := by
  rw [Dec.nameErrors, routineNameErrors]
  simp only [List.append_assoc]

mutual

/-- **A declaration of a new name is scoped exactly if its names are all right, and as it is resolved.** -/
theorem Dec.scoped_iff {env : Env} {V : View} (h : env.Shows V) : ∀ (d : Dec) {d' : Dec},
    env.declaredHere d.id = false → (d.Scoped V d' ↔ d.nameErrors env = [] ∧ d' = d.resolve env)
  | .var l x ty v, d', hx => by
    rw [Dec.nameErrors, Dec.resolve, List.append_eq_nil_iff, List.append_eq_nil_iff, Env.declareErrors_eq_nil,
      Env.typeNameErrors_eq_nil h.classNames]
    refine ⟨fun hs => ?_, ?_⟩
    · cases hs with
      | var value type =>
        obtain ⟨hv, rfl⟩ := (v.scoped_iff h).1 value
        exact ⟨⟨⟨hv, type⟩, hx⟩, rfl⟩
    · rintro ⟨⟨⟨hv, type⟩, -⟩, rfl⟩
      exact .var ((v.scoped_iff h).2 ⟨hv, rfl⟩) type
  | .func l x ret params ds b, d', hx => by
    have hdeclared := h.declare hx (.function (signatureOf params ret))
    have hlocals : ∀ {ds' : List Dec} {env : Env} {V : View}, env.Shows V → env.New (ds.map Dec.id) →
        (LocalsScoped V ds ds' ↔ localNameErrors env ds = [] ∧ ds' = resolveLocals env ds) :=
      fun hs hn => localsScoped_iff hs ds hn
    rw [Dec.nameErrors_func, Dec.resolve, List.append_eq_nil_iff, List.append_eq_nil_iff, Env.declareErrors_eq_nil,
      Env.typeNameErrors_eq_nil h.classNames]
    refine ⟨fun hs => ?_, ?_⟩
    · cases hs with
      | func type routine =>
        obtain ⟨hr, rfl, rfl⟩ := (routineScoped_iff hdeclared params b hlocals).1 routine
        exact ⟨⟨⟨type, hx⟩, hr⟩, rfl⟩
    · rintro ⟨⟨⟨type, -⟩, hr⟩, rfl⟩
      exact .func type ((routineScoped_iff hdeclared params b hlocals).2 ⟨hr, rfl, rfl⟩)

theorem localsScoped_iff {env : Env} {V : View} (h : env.Shows V) : ∀ (ds : List Dec) {ds' : List Dec},
    env.New (ds.map Dec.id) → (LocalsScoped V ds ds' ↔ localNameErrors env ds = [] ∧ ds' = resolveLocals env ds)
  | [], ds', _ => by
    refine ⟨fun hs => ?_, ?_⟩
    · cases hs
      exact ⟨rfl, rfl⟩
    · rintro ⟨-, rfl⟩
      exact .nil
  | d :: ds, ds', hn => by
    obtain ⟨hd, hds⟩ := (Env.new_cons_dec h.isOpen d).1 hn
    rw [localNameErrors, resolveLocals, List.append_eq_nil_iff]
    refine ⟨fun hs => ?_, ?_⟩
    · cases hs with
      | cons head tail =>
        obtain ⟨he, rfl⟩ := (Dec.scoped_iff h d hd).1 head
        obtain ⟨hes, rfl⟩ := (localsScoped_iff (h.after hd) ds hds).1 tail
        exact ⟨⟨he, hes⟩, rfl⟩
    · rintro ⟨⟨he, hes⟩, rfl⟩
      exact .cons ((Dec.scoped_iff h d hd).2 ⟨he, rfl⟩) ((localsScoped_iff (h.after hd) ds hds).2 ⟨hes, rfl⟩)

end

end FoolLang
