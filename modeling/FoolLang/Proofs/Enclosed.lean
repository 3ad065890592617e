import FoolLang.Proofs.Declaring
import FoolLang.Proofs.Rejects
import FoolLang.Proofs.Tethers
/-!
# Enclosed — methods do not look past their object

A name used in a method is that of a local, of a parameter, of a member of the class or of a class, and only the classes
lie in the global scope (`Env.Inside`).  A class is no value, nothing to call and no object, so a use that is typed has
an entry at the level of the members at least (`Expr.Enclosed`).  The code that goes to its frame follows a link for
each level in between.  It stands in the block of a routine of the method (`Method.emittedAt_of_nodesAt`), where a run
has all these links: it ends at the object or before (`methods_stay_inside`).
-/
namespace FoolLang

/-- The use whose frame the code of a node goes to. -/
def Expr.use? : Expr → Option Use
  | .id _ u | .call _ u _ | .send _ u _ _ _ => some u
  | _ => none

mutual

/-- The nodes of a declaration with the number of functions that they are nested in, the declaration in `d`. -/
def Dec.nodesAt (d : Nat) : Dec → List (Nat × Expr)
  | .var _ _ _ v => v.nodes.map (d, ·)
  | .func _ _ _ _ locals body => localNodesAt (d + 1) locals ++ body.nodes.map (d + 1, ·)

def localNodesAt (d : Nat) : List Dec → List (Nat × Expr)
  | [] => []
  | x :: xs => x.nodesAt d ++ localNodesAt d xs

end

/-- The nodes of a method with the number of functions in it that they are nested in. -/
def Method.nodesAt (m : Method) : List (Nat × Expr) := localNodesAt 0 m.locals ++ m.body.nodes.map (0, ·)

theorem map_snd_pairs {α β : Type} (a : α) (bs : List β) : (bs.map (a, ·)).map Prod.snd = bs := by
  rw [List.map_map]
  exact List.map_id bs

mutual

theorem Dec.map_snd_nodesAt : ∀ (x : Dec) (d : Nat), (x.nodesAt d).map Prod.snd = x.nodes
  | .var _ _ _ v, d => map_snd_pairs d v.nodes
  | .func _ _ _ _ locals body, d => by
    rw [Dec.nodesAt, List.map_append, map_snd_pairs, map_snd_localNodesAt locals]
    rfl

theorem map_snd_localNodesAt : ∀ (xs : List Dec) (d : Nat), (localNodesAt d xs).map Prod.snd = localNodes xs
  | [], _ => rfl
  | x :: xs, d => by
    rw [localNodesAt, List.map_append, x.map_snd_nodesAt, map_snd_localNodesAt xs]
    rfl

end

/-- **Every node of a method is found.** -/
theorem Method.map_snd_nodesAt (m : Method) : m.nodesAt.map Prod.snd = m.nodes := by
  rw [nodesAt, List.map_append, map_snd_pairs, map_snd_localNodesAt]
  rfl

/-- The nodes of the variables among declarations. -/
def varNodes : List Dec → List Expr
  | [] => []
  | .var _ _ _ v :: ds => v.nodes ++ varNodes ds
  | .func .. :: ds => varNodes ds

/-- The nodes whose code is in the block of a routine: not those of the functions inside it. -/
def Emitted.nodes (r : Emitted) : List Expr := varNodes r.locals ++ r.body.nodes

mutual

/-- A node of a declaration stands in a routine of the declaration, or in the one that has the declaration. -/
theorem Dec.emittedAt_of_nodesAt : ∀ (x : Dec) {d : Nat} (k f : Nat), ∀ e ∈ x.nodesAt d,
    (e.1 = d ∧ e.2 ∈ varNodes [x]) ∨ ∃ r, (e.1, r) ∈ x.emittedAt d k f ∧ e.2 ∈ r.nodes
  | .var _ _ _ v, _, _, _ => fun _ he => by
    obtain ⟨n, hn, rfl⟩ := List.mem_map.1 he
    exact .inl ⟨rfl, List.mem_append_left _ hn⟩
  | .func _ _ _ params locals body, d, k, f => fun e he => by
    refine .inr ?_
    rcases List.mem_append.1 he with he | he
    · rcases emittedAt_of_localNodesAt locals k (f + 1) e he with ⟨hd, hn⟩ | ⟨r, hr, hn⟩
      · refine ⟨⟨f, k, params.length, locals, body⟩, List.mem_append_right _ ?_, List.mem_append_left _ hn⟩
        rw [hd]
        exact List.mem_cons_self
      · exact ⟨r, List.mem_append_left _ hr, hn⟩
    · obtain ⟨n, hn, rfl⟩ := List.mem_map.1 he
      exact ⟨_, List.mem_append_right _ List.mem_cons_self, List.mem_append_right _ hn⟩

theorem emittedAt_of_localNodesAt : ∀ (xs : List Dec) {d : Nat} (k f : Nat), ∀ e ∈ localNodesAt d xs,
    (e.1 = d ∧ e.2 ∈ varNodes xs) ∨ ∃ r, (e.1, r) ∈ localEmittedAt d k f xs ∧ e.2 ∈ r.nodes
  | [], _, _, _ => nofun
  | x :: xs, _, k, f => fun e he => by
    rcases List.mem_append.1 he with he | he
    · rcases x.emittedAt_of_nodesAt k f e he with ⟨hd, hn⟩ | ⟨r, hr, hn⟩
      · refine .inl ⟨hd, ?_⟩
        cases x with
        | var l y ty v => exact List.mem_append_left _ (by simpa [varNodes] using hn)
        | func => cases hn
      · exact .inr ⟨r, List.mem_append_left _ hr, hn⟩
    · rcases emittedAt_of_localNodesAt xs (k + x.labels) (f + x.routines) e he with ⟨hd, hn⟩ | ⟨r, hr, hn⟩
      · refine .inl ⟨hd, ?_⟩
        cases x with
        | var => exact List.mem_append_right _ hn
        | func => exact hn
      · exact .inr ⟨r, List.mem_append_right _ hr, hn⟩

end

/-- **A node of a method stands in one of its routines**, in as many functions as the routine does. -/
theorem Method.emittedAt_of_nodesAt (m : Method) (k f : Nat) : ∀ e ∈ m.nodesAt,
    ∃ r, (e.1, r) ∈ m.emittedAt k f ∧ e.2 ∈ r.nodes := fun e he => by
  rcases List.mem_append.1 he with he | he
  · rcases emittedAt_of_localNodesAt m.locals k (f + 1) e he with ⟨hd, hn⟩ | ⟨r, hr, hn⟩
    · refine ⟨⟨f, k, m.params.length, m.locals, m.body⟩, List.mem_append_right _ ?_, List.mem_append_left _ hn⟩
      rw [hd]
      exact List.mem_cons_self
    · exact ⟨r, List.mem_append_left _ hr, hn⟩
  · obtain ⟨n, hn, rfl⟩ := List.mem_map.1 he
    exact ⟨_, List.mem_append_right _ List.mem_cons_self, List.mem_append_right _ hn⟩

/-! ## What is visible inside a class -/

/-- At level `n` inside a class, a name that is declared is that of a class, or it is declared inside the class too. -/
structure Env.Inside (n : Nat) (env : Env) : Prop where
  level : env.level = n
  isOpen : env.scopes ≠ []
  entry : ∀ x e, env.lookup x = some e → (1 ≤ e.level ∧ e.level ≤ n) ∨ ∃ l, e.ty = .cls l

namespace Env.Inside

variable {env : Env} {n : Nat}

theorem insert (h : env.Inside n) (x : Ident) {e : Entry} (he : 1 ≤ e.level ∧ e.level ≤ n) :
    (env.insert x e).Inside n where
  level := (insert_level env x e).trans h.level
  isOpen := insert_isOpen h.isOpen x e
  entry y f hf := by
    rw [lookup_insert h.isOpen] at hf
    split at hf
    · obtain rfl := Option.some.inj hf
      exact .inl he
    · exact h.entry y f hf

theorem enter (h : env.Inside n) : env.enter.Inside (n + 1) where
  level := congrArg (· + 1) h.level
  isOpen := List.cons_ne_nil _ _
  entry y f hf := (h.entry y f hf).imp_left fun hl => ⟨hl.1, Nat.le_succ_of_le hl.2⟩

theorem bindParams : ∀ (ps : List Param) {env : Env} {offset : Int}, env.Inside (n + 1) →
    (env.bindParams offset ps).Inside (n + 1)
  | [], _, _, h => h
  | p :: ps, env, _, h => bindParams ps (h.insert p.id (by
      show 1 ≤ env.level ∧ env.level ≤ n + 1
      rw [h.level]
      omega))

theorem inRoutine (h : env.Inside n) (ps : List Param) : (env.inRoutine ps).Inside (n + 1) := h.enter.bindParams ps

theorem declare (h : env.Inside (n + 1)) (x : Ident) (ty : Ty) : (env.declare x ty).Inside (n + 1) := by
  have hin := h.insert x (e := ⟨env.level, ty, env.next⟩) (by
    show 1 ≤ env.level ∧ env.level ≤ n + 1
    rw [h.level]
    omega)
  exact ⟨hin.level, hin.isOpen, hin.entry⟩

theorem after (h : env.Inside (n + 1)) (d : Dec) : (env.after d).Inside (n + 1) := by
  cases d with
  | var | func => exact h.declare _ _

theorem afterAll : ∀ (ds : List Dec) {env : Env}, env.Inside (n + 1) → (env.afterAll ds).Inside (n + 1)
  | [], _, h => h
  | d :: ds, _, h => afterAll ds (h.after d)

end Env.Inside

/-! ## The uses of a method -/

/-- The use of a node at level `n`, if it has an entry: where the node is typed, the entry lies inside the class. -/
def Expr.Enclosed (k : Classes) (n : Nat) (x : Expr) : Prop :=
  ∀ u e, x.use? = some u → u.entry = some e →
    u.level = n ∧ ∀ t, x.type k = .ok t → 1 ≤ e.level ∧ e.level ≤ n

section

variable {k : Classes} {env : Env} {n : Nat} {l : Nat}

theorem Env.Inside.use (h : env.Inside n) {x : Ident} {e : Entry} (he : (env.use x).entry = some e) :
    (env.use x).level = n ∧ ((1 ≤ e.level ∧ e.level ≤ n) ∨ ∃ l, e.ty = .cls l) := by
  obtain ⟨hx, huse⟩ := Env.use_entry he
  exact ⟨by rw [huse]; exact h.level, h.entry x e hx⟩

/-- A class is no value. -/
theorem Env.Inside.id (h : env.Inside n) (x : Ident) : (Expr.id l (env.use x)).Enclosed k n := by
  rintro u e ⟨⟩ he
  obtain ⟨hlevel, hin | ⟨layout, hcls⟩⟩ := h.use he
  · exact ⟨hlevel, fun _ _ => hin⟩
  · refine ⟨hlevel, fun t ht => ?_⟩
    obtain ⟨e', he', hty, hvalue⟩ := Use.valueType_ok ht
    obtain rfl := Option.some.inj (he.symm.trans he')
    rw [← hty, hcls] at hvalue
    cases hvalue

/-- A class is nothing to call. -/
theorem Env.Inside.call (h : env.Inside n) (x : Ident) (args : List Expr) :
    (Expr.call l (env.use x) args).Enclosed k n := by
  rintro u e ⟨⟩ he
  obtain ⟨hlevel, hin | ⟨layout, hcls⟩⟩ := h.use he
  · exact ⟨hlevel, fun _ _ => hin⟩
  · refine ⟨hlevel, fun t ht => ?_⟩
    rw [Expr.type] at ht
    cases hsig : (env.use x).calleeSignature l with
    | error err =>
      rw [hsig] at ht
      cases ht
    | ok sig =>
      obtain ⟨e', he', hty⟩ := Use.calleeSignature_ok hsig
      obtain rfl := Option.some.inj (he.symm.trans he')
      rw [hcls] at hty
      rcases hty with hty | hty <;> cases hty

/-- A class is no object. -/
theorem Env.Inside.send (h : env.Inside n) {x m : Ident} {o me : Entry} (ht : env.sendTarget x m = .ok (o, me))
    (args : List Expr) : (Expr.send l ⟨x, env.level, some o⟩ m (some me) args).Enclosed k n := by
  rintro u e ⟨⟩ he
  obtain rfl := Option.some.inj he
  obtain ⟨hx, c, -, hty, -⟩ := Env.sendTarget_ok ht
  refine ⟨h.level, fun _ _ => (h.entry x _ hx).resolve_right ?_⟩
  rintro ⟨layout, hcls⟩
  rw [hty] at hcls
  cases hcls

end

mutual

theorem Expr.resolve_enclosed {k : Classes} {env : Env} {n : Nat} (h : env.Inside n) :
    ∀ e : Expr, ∀ x ∈ (e.resolve env).nodes, x.Enclosed k n
  | .int _ _ | .bool _ _ | .null _ => fun x hx => by
    obtain rfl := List.mem_singleton.1 hx
    exact nofun
  | .binary _ _ a b => Expr.forall_nodes_binary.2 ⟨nofun, a.resolve_enclosed h, b.resolve_enclosed h⟩
  | .not _ a => Expr.forall_nodes_not.2 ⟨nofun, a.resolve_enclosed h⟩
  | .cond _ c a b =>
    Expr.forall_nodes_cond.2 ⟨nofun, c.resolve_enclosed h, a.resolve_enclosed h, b.resolve_enclosed h⟩
  | .print _ a => Expr.forall_nodes_print.2 ⟨nofun, a.resolve_enclosed h⟩
  | .id _ u => fun x hx => by
    obtain rfl := List.mem_singleton.1 hx
    exact h.id u.id
  | .call _ u es => Expr.forall_nodes_call.2 ⟨h.call u.id _, resolveArgs_enclosed h es⟩
  | .send _ u m _ es => by
    rw [Expr.resolve]
    split
    · exact Expr.forall_nodes_send.2 ⟨h.send ‹_› _, resolveArgs_enclosed h es⟩
    · refine Expr.forall_nodes_send.2 ⟨?_, resolveArgs_enclosed h es⟩
      rintro u e ⟨⟩ he
      cases he
  | .new _ c _ es => Expr.forall_nodes_new.2 ⟨nofun, resolveArgs_enclosed h es⟩

theorem resolveArgs_enclosed {k : Classes} {env : Env} {n : Nat} (h : env.Inside n) :
    ∀ es : List Expr, ∀ x ∈ argNodes (resolveArgs env es), x.Enclosed k n
  | [] => nofun
  | e :: es => forall_argNodes_cons.2 ⟨e.resolve_enclosed h, resolveArgs_enclosed h es⟩

end

/-- The nodes of an expression in `d` functions of a method. -/
theorem Expr.resolve_enclosedAt {k : Classes} {env : Env} {d : Nat} (h : env.Inside (d + 2)) (e : Expr) :
    ∀ p ∈ (e.resolve env).nodes.map (d, ·), p.2.Enclosed k (p.1 + 2) := fun p hp => by
  obtain ⟨x, hx, rfl⟩ := List.mem_map.1 hp
  exact e.resolve_enclosed h x hx

mutual

theorem Dec.resolve_enclosed {k : Classes} : ∀ (x : Dec) {env : Env} {d : Nat}, env.Inside (d + 2) →
    ∀ p ∈ (x.resolve env).nodesAt d, p.2.Enclosed k (p.1 + 2)
  | .var _ _ _ v, _, _, h => v.resolve_enclosedAt h
  | .func _ x ret params locals body, env, d, h => fun p hp => by
    have hin := (h.declare x (.function (signatureOf params ret))).inRoutine params
    rcases List.mem_append.1 hp with hp | hp
    · exact resolveLocals_enclosed locals hin p hp
    · exact body.resolve_enclosedAt (hin.afterAll locals) p hp

theorem resolveLocals_enclosed {k : Classes} : ∀ (xs : List Dec) {env : Env} {d : Nat}, env.Inside (d + 2) →
    ∀ p ∈ localNodesAt d (resolveLocals env xs), p.2.Enclosed k (p.1 + 2)
  | [], _, _, _, _, hp => nomatch hp
  | x :: xs, _, _, h, p, hp => by
    rcases List.mem_append.1 hp with hp | hp
    · exact x.resolve_enclosed h p hp
    · exact resolveLocals_enclosed xs (h.after x) p hp

end

theorem Method.resolve_enclosed {k : Classes} {env : Env} (h : env.Inside 1) (m : Method) :
    ∀ p ∈ (m.resolve env).nodesAt, p.2.Enclosed k (p.1 + 2) := fun p hp => by
  have hin := h.inRoutine m.params
  rcases List.mem_append.1 hp with hp | hp
  · exact resolveLocals_enclosed m.locals hin p hp
  · exact m.body.resolve_enclosedAt (hin.afterAll m.locals) p hp

/-! ## What a type says of the nodes -/

/-- Whether the check of an expression comes to a type. -/
def Expr.HasType (k : Classes) (x : Expr) : Prop := ∃ t, x.type k = .ok t

section

variable {k : Classes}

mutual

/-- **The nodes of an expression with a type have types**: its check is that of all of them. -/
theorem Expr.hasType_nodes : ∀ {e : Expr} {t : Ty}, e.type k = .ok t → ∀ x ∈ e.nodes, x.HasType k
  | .int _ _, t, h | .bool _ _, t, h | .null _, t, h | .id _ _, t, h => fun x hx => by
    obtain rfl := List.mem_singleton.1 hx
    exact ⟨t, h⟩
  | .binary _ _ _ _, t, h => by
    obtain ⟨_, _, ha, hb, -⟩ := Host.type_binary h
    exact Expr.forall_nodes_binary.2 ⟨⟨t, h⟩, Expr.hasType_nodes ha, Expr.hasType_nodes hb⟩
  | .not _ _, t, h => by
    obtain ⟨_, ha, -⟩ := Host.type_not h
    exact Expr.forall_nodes_not.2 ⟨⟨t, h⟩, Expr.hasType_nodes ha⟩
  | .cond _ _ _ _, t, h => by
    obtain ⟨_, _, _, hc, ha, hb, -⟩ := Host.type_cond h
    exact Expr.forall_nodes_cond.2 ⟨⟨t, h⟩, Expr.hasType_nodes hc, Expr.hasType_nodes ha, Expr.hasType_nodes hb⟩
  | .print _ a, t, h => Expr.forall_nodes_print.2 ⟨⟨t, h⟩, Expr.hasType_nodes (e := a) h⟩
  | .call _ _ _, t, h => by
    obtain ⟨_, -, hargs⟩ := exists_of_bind_ok h
    obtain ⟨hlen, hargs, -⟩ := Host.apply_ok hargs
    exact Expr.forall_nodes_call.2 ⟨⟨t, h⟩, hasType_argNodes hlen hargs⟩
  | .send _ _ _ _ _, t, h => by
    obtain ⟨_, -, hargs⟩ := exists_of_bind_ok h
    obtain ⟨hlen, hargs, -⟩ := Host.apply_ok hargs
    exact Expr.forall_nodes_send.2 ⟨⟨t, h⟩, hasType_argNodes hlen hargs⟩
  | .new _ _ _ _, t, h => by
    obtain ⟨_, -, hargs⟩ := exists_of_bind_ok h
    obtain ⟨hlen, hargs, -⟩ := Host.apply_ok hargs
    exact Expr.forall_nodes_new.2 ⟨⟨t, h⟩, hasType_argNodes hlen hargs⟩

theorem hasType_argNodes {wrong : Nat → TypeError} : ∀ {es : List Expr} {ps : List Ty} {n : Nat},
    es.length = ps.length → checkArgs k wrong n es ps = .ok () → ∀ x ∈ argNodes es, x.HasType k
  | [], _, _, _, _ => nofun
  | _ :: _, [], _, hlen, _ => nomatch hlen
  | _ :: _, _ :: _, _, hlen, h => by
    obtain ⟨_, he, -, hes⟩ := Host.checkArgs_cons h
    exact forall_argNodes_cons.2 ⟨Expr.hasType_nodes he, hasType_argNodes (Nat.succ.inj hlen) hes⟩

end

theorem Expr.hasType_of_checkBelow {e : Expr} {ty : Ty} {wrong : TypeError}
    (h : reported (e.checkBelow k ty wrong) = []) (hw : wrong ≠ .incomplete) (hc : ∀ x ∈ e.nodes, x.Checkable k) :
    ∀ x ∈ e.nodes, x.HasType k := by
  obtain ⟨_, ht, -⟩ := checkBelow_ok h hw (e.type_ne_incomplete hc)
  exact hasType_nodes ht

mutual

theorem Dec.hasType_nodes : ∀ {d : Dec}, d.typeErrors k = [] → (∀ x ∈ d.nodes, x.Checkable k) →
    ∀ x ∈ d.nodes, x.HasType k
  | .var _ _ _ _, h, hc => Expr.hasType_of_checkBelow h nofun hc
  | .func _ _ _ _ _ _, h, hc => by
    obtain ⟨hlocals, hbody⟩ := List.append_eq_nil_iff.1 h
    obtain ⟨hcl, hcb⟩ := Dec.forall_nodes_func.1 hc
    exact Dec.forall_nodes_func.2 ⟨hasType_localNodes hlocals hcl, Expr.hasType_of_checkBelow hbody nofun hcb⟩

theorem hasType_localNodes : ∀ {ds : List Dec}, localTypeErrors k ds = [] → (∀ x ∈ localNodes ds, x.Checkable k) →
    ∀ x ∈ localNodes ds, x.HasType k
  | [], _, _ => nofun
  | _ :: _, h, hc => by
    obtain ⟨hd, hds⟩ := List.append_eq_nil_iff.1 h
    obtain ⟨hcd, hcds⟩ := forall_localNodes_cons.1 hc
    exact forall_localNodes_cons.2 ⟨Dec.hasType_nodes hd hcd, hasType_localNodes hds hcds⟩

end

/-- **The nodes of a method without errors have types.** -/
theorem Method.hasType_nodes {m : Method} (h : m.typeErrors k = []) (hc : ∀ x ∈ m.nodes, x.Checkable k) :
    ∀ x ∈ m.nodes, x.HasType k := by
  obtain ⟨hlocals, hbody⟩ := List.append_eq_nil_iff.1 h
  obtain ⟨hcl, hcb⟩ := forall_nodes.1 hc
  exact forall_nodes.2 ⟨hasType_localNodes hlocals hcl, Expr.hasType_of_checkBelow hbody nofun hcb⟩

end

/-! ## The methods of a program -/

/-- Members lie at level 1. -/
theorem level_memberEntries : ∀ (ks : List Class) (c : Ident), ∀ p ∈ memberEntries ks c, p.2.level = 1
  | [], _, _, hp => nomatch hp
  | k :: ks, c, p, hp => by
    rw [memberEntries] at hp
    split at hp
    · rcases List.mem_append.1 hp with hp | hp
      · rcases List.mem_append.1 (List.mem_reverse.1 hp) with hp | hp
        · obtain ⟨f, -, rfl⟩ := List.mem_map.1 hp
          rfl
        · obtain ⟨m, -, rfl⟩ := List.mem_map.1 hp
          rfl
      · cases hs : k.super with
        | none =>
          rw [hs] at hp
          cases hp
        | some s =>
          rw [hs] at hp
          exact level_memberEntries ks s p hp
    · exact level_memberEntries ks c p hp

theorem ofClasses_classEntries : ∀ ks : List Class, Scope.OfClasses (classEntries ks)
  | [], _, _, h => nomatch h
  | k :: ks, x, e, h => by
    rw [classEntries, List.lookup_cons] at h
    split at h
    · obtain rfl := Option.some.inj h
      exact ⟨_, rfl⟩
    · exact ofClasses_classEntries ks x e h

section

variable {env : Env} {V : View} {k : Class}

/-- Between its members and the classes nothing is visible to a class. -/
theorem Env.ShowsClasses.inside (h : env.ShowsClasses V) (hd : env.Declares V k) : (env.inClass k).Inside 1 := by
  have hin := h.inClass hd
  have hlevel : (V.inClass k).level = 1 := congrArg (· + 1) h.level_eq
  refine ⟨hin.level.trans hlevel, hin.isOpen, fun x e he => ?_⟩
  have hnames : (V.inClass k).names = memberEntries (V.afterClass k).classes k.id := by
    show memberEntries (V.afterClass k).classes k.id ++ V.names = _
    rw [h.names_eq, List.append_nil]
  rw [hin.names, View.visible, List.lookup_append, hnames] at he
  rcases Option.or_eq_some_iff.1 he with hx | ⟨-, hx⟩
  · have hone : e.level = 1 := level_memberEntries _ _ _ (mem_of_lookup hx)
    exact .inl (by omega)
  · exact .inr (ofClasses_classEntries _ x e hx)

theorem Env.ShowsClasses.methods : ∀ (ks : List Class) {env : Env} {V : View}, env.ShowsClasses V →
    Plain (fieldTypes ks) → classesNameErrors env ks = [] → ∀ c ∈ resolveClasses env ks, ∀ m ∈ c.methods,
    ∃ (inner : Env) (d : Method), inner.Inside 1 ∧ m = d.resolve inner
  | [], _, _, _, _, _, _, hc, _, _ => nomatch hc
  | k :: ks, env, V, hv, hp, hn, c, hc, m, hm => by
    obtain ⟨hk, hks⟩ := List.append_eq_nil_iff.1 hn
    obtain ⟨hpk, hpks⟩ := plain_cons hp
    have hd := hv.declares hpk (Class.allowed_of_nameErrors hv hpk hk)
    rcases List.mem_cons.1 hc with rfl | hc
    · rw [hd.resolved] at hm
      obtain ⟨d, -, rfl⟩ := List.mem_map.1 hm
      exact ⟨_, d, hv.inside hd, rfl⟩
    · exact methods ks (hv.afterClass hd) hpks hks c hc m hm

end

/-- **The methods of a program are resolved inside their classes.** -/
theorem Program.methods_enclosed {source : List Char} {p : Program} {k : Classes} (hp : parse source = .ok p)
    (hn : p.nameErrors = []) : ∀ c ∈ p.resolve.classes, ∀ m ∈ c.methods, ∀ x ∈ m.nodesAt, x.2.Enclosed k (x.1 + 2) := by
  intro c hc m hm
  cases p with
  | expr body => cases hc
  | letIn cs ds body =>
    have hcs : classesNameErrors (Env.initial (cs.map Class.id)) cs = [] :=
      (List.append_eq_nil_iff.1 (List.append_eq_nil_iff.1 hn).1).1
    obtain ⟨inner, d, hin, rfl⟩ :=
      Env.ShowsClasses.methods cs (Env.showsClasses_initial _) (parse_sound hp).2.2 hcs c hc m hm
    exact d.resolve_enclosed hin

/-- **The nodes of the methods of an accepted program have entries and types.** -/
theorem Program.methods_hasType {p : Program} (hd : p.diagnostics = []) : ∀ c ∈ p.resolve.classes, ∀ m ∈ c.methods,
    ∀ x ∈ m.nodes, x.Checkable p.classTable ∧ x.HasType p.classTable := by
  intro c hc m hm
  have hcheck : ∀ x ∈ m.nodes, x.Checkable p.classTable := fun x hx =>
    resolve_checkable (fun _ => lookup_layouts) (nameErrors_eq_nil hd) x (List.mem_append_left _
      (List.mem_append_left _ (List.mem_flatMap.2 ⟨c, hc, List.mem_flatMap.2 ⟨m, hm, hx⟩⟩)))
  have hclass := List.flatMap_eq_nil_iff.1 (List.append_eq_nil_iff.1 (typeErrors_eq_nil hd)).1 c hc
  have hmethod := List.flatMap_eq_nil_iff.1 (List.append_eq_nil_iff.1 hclass).1 m hm
  exact fun x hx => ⟨hcheck x hx, Method.hasType_nodes hmethod hcheck x hx⟩

theorem Expr.Checkable.use_entry {k : Classes} : ∀ {x : Expr} {u : Use}, x.Checkable k → x.use? = some u →
    ∃ e, u.entry = some e
  | .id _ _, _, h, rfl | .call _ _ _, _, h, rfl => Option.isSome_iff_exists.1 h
  | .send _ _ _ _ _, _, h, rfl => Option.isSome_iff_exists.1 h.1

/-- **Methods do not look past their object.**  In an accepted program, a name, a call or a receiver that stands in `d`
functions of a method has an entry at level 1 at least.  Where `d + 1` links lead from the frame over those of the other
functions and of the method to the object, the code that goes to the frame of the entry loads some of these links and
nothing else: it ends at the object or before, and leaves the dispatch pointer alone.  And the links are there: the code
of the name is in the block of a routine of the method, and in every run, wherever that block loads the frame pointer,
`d + 1` links lead to the heap, where the object lies. -/
theorem methods_stay_inside {source : List Char} {p : Program} (hp : parse source = .ok p) (hd : p.diagnostics = []) :
    ∀ c ∈ p.resolve.classes, ∀ m ∈ c.methods, ∀ d x, (d, x) ∈ m.nodesAt → ∀ u, x.use? = some u →
    (∃ e, u.entry = some e ∧ u.level = d + 2 ∧ 1 ≤ e.level ∧ e.level ≤ u.level ∧
      ∀ (code rest : Code) (machine : Machine) (h : Nat) (link : Nat → Nat),
        machine.Before code (Line.frame u e ++ rest) → machine.HeapTo h → machine.Linked h (d + 1) link →
        ∀ i ≤ u.level - e.level, i ≤ d + 1 ∧ machine.Attains code (i + 1) fun m' =>
          m'.Before code (List.replicate (u.level - e.level - i) (.op .lw) ++ rest) ∧
            m'.top = some (.ofNat (link i))) ∧
    ∃ k f r, m.emitted k f <:+: p.resolve.emitted ∧ (d, r) ∈ m.emittedAt k f ∧ x ∈ r.nodes ∧
      (Text.byteLength source ≤ Text.maxInt32 → ∀ (n : Nat) (limits : Limits) (compilation : Compilation)
        (machine : Machine), run n source limits = .ok (compilation, machine, .running) →
        r.LoadsFrame compilation.code limits.memory machine →
        ∃ (h : Nat) (link : Nat → Nat), machine.HeapTo h ∧ machine.Linked h (d + 1) link ∧ link (d + 1) < h) := by
  intro c hc m hm d x hx u hu
  constructor
  · have hnode : x ∈ m.nodes := m.map_snd_nodesAt ▸ List.mem_map_of_mem hx
    obtain ⟨hcheck, t, ht⟩ := Program.methods_hasType hd c hc m hm x hnode
    obtain ⟨e, he⟩ := hcheck.use_entry hu
    obtain ⟨hlevel, hinside⟩ :=
      Program.methods_enclosed (k := p.classTable) hp (Program.nameErrors_eq_nil hd) c hc m hm _ hx u e hu he
    obtain ⟨hone, hle⟩ := hinside t ht
    refine ⟨e, he, hlevel, hone, by omega, fun code rest machine h link hb hheap hlink i hi => ⟨by omega, ?_⟩⟩
    have hfew : machine.Linked h (u.level - e.level) link :=
      ⟨hlink.fp, fun j hj => hlink.next j (by omega), fun j hj => hlink.apart j (by omega)⟩
    exact (hb.hops hheap hfew i hi).mono fun m' hm' => ⟨hm'.1, hm'.2.2.2.1⟩
  · obtain ⟨k, f, hinfix, hlevels⟩ := Program.exists_emitted hc hm
    obtain ⟨r, hr, hxr⟩ := m.emittedAt_of_nodesAt k f _ hx
    refine ⟨k, f, r, hinfix, hr, hxr, fun hb n limits compilation machine hrun hloads => ?_⟩
    obtain ⟨p', ty, hp', -, -, rfl⟩ := compile_ok (of_run hrun).1
    obtain rfl : p' = p := Except.ok.inj (hp'.symm.trans hp)
    exact linked_of_loadsFrame hb hrun (hlevels _ hr) hloads

/-- A source where a function in a method reads a field. -/
def nestedSource : List Char :=
  "let class C (n: int) { fun g: int () let fun h: int () n; in h(); } ".toList ++
    "var c: C := new C(7); in c.g();".toList

/-- After 54 instructions the frame of the function, at 91, is linked to that of the method, at 95, and this one to the
object at 2, where the code stops.  The function is about to load its frame pointer. -/
theorem nestedSource_stays_inside : ∃ p c method x u e m m', parse nestedSource = .ok p ∧ p.diagnostics = [] ∧
    c ∈ p.resolve.classes ∧ method ∈ c.methods ∧ (1, x) ∈ method.nodesAt ∧ x.use? = some u ∧ u.entry = some e ∧
    u.level = 3 ∧ e.level = 1 ∧ Machine.run (p.resolve.code 100).instrs 54 (.fresh 100) = (m, .running) ∧
    m.Linked 3 2 (fun i => if i = 0 then 91 else if i = 1 then 95 else 2) ∧
    Machine.run (p.resolve.code 100).instrs 3 m = (m', .running) ∧ m'.top = some 2 ∧
    ∃ (r : Emitted) (compilation : Compilation) (h : Nat) (link : Nat → Nat),
      run 54 nestedSource ⟨100, 1000⟩ = .ok (compilation, m, .running) ∧ x ∈ r.nodes ∧
      r.LoadsFrame compilation.code 100 m ∧ m.HeapTo h ∧ m.Linked h 2 link ∧ link 2 < h := by
  have hparsed : (parse nestedSource).toOption.any (fun p => decide (p.diagnostics = []) &&
      (let code := p.resolve.code 100
       let r := Machine.run code.instrs 54 (.fresh 100)
       (p.resolve.classes.any fun c => c.methods.any fun method => method.nodesAt.any fun x =>
        decide (x.1 = 1) && x.2.use?.any fun u => u.entry.any fun e =>
          decide (e.level = 1 ∧ code.drop 44 = Line.frame u e ++ code.drop 47)) &&
        (decide (r.2 = .running) && decide ((Machine.run code.instrs 3 r.1).2 = .running) &&
          decide (r.1.ip = Code.size (code.take 44) ∧ r.1.hp = .ofNat 3 ∧ 3 ≤ r.1.sp ∧ r.1.sp ≤ 91 ∧
            r.1.memory.size = 100 ∧ r.1.fp = .ofNat 91 ∧ r.1.memory.get? 91 = some (.ofNat 95) ∧
            r.1.memory.get? 95 = some (.ofNat 2))) &&
        p.resolve.emitted.all fun e => (e.nodes.all fun x => !x.use?.any fun u => decide (u.level = 3)) ||
          decide (code = code.take 41 ++ e.code 100 ++ code.drop 57 ∧
            e.code 100 = (e.code 100).take 3 ++ .op .lfp :: (e.code 100).drop 4 ∧
            r.1.ip = Code.size (code.take 41 ++ (e.code 100).take 3)))) = true := by
    decide +kernel
  have hruns : (run 54 nestedSource ⟨100, 1000⟩).toOption.any (fun r => decide (r.2.2 = .running)) = true := by
    decide +kernel
  obtain ⟨p, hp, hm⟩ := exists_of_any hparsed
  simp only [Bool.and_eq_true, decide_eq_true_eq, List.any_eq_true, Option.any_eq_true] at hm
  obtain ⟨hd, ⟨⟨c, hc, method, hmethod, ⟨_, x⟩, hx, rfl, u, hu, e, he, hlevel, hlines⟩, ⟨hrunning, hstill⟩, hip, hhp,
    hle, hsp, hsize, hfp, hframe, hmember⟩, hroutines⟩ := hm
  obtain ⟨⟨e', he', hdepth, -, -, hwalk⟩, k, f, r, hinfix, hr, hxr, hlinks⟩ :=
    methods_stay_inside hp hd c hc method hmethod 1 x hx u hu
  obtain rfl : e' = e := Option.some.inj (he'.symm.trans he)
  have hlinked : (Machine.run (p.resolve.code 100).instrs 54 (.fresh 100)).1.Linked 3 2
      (fun i => if i = 0 then 91 else if i = 1 then 95 else 2) := by
    refine ⟨hfp, fun i hi => ?_, fun i hi => .inr ?_⟩
    all_goals obtain rfl | rfl : i = 0 ∨ i = 1 := by omega
    · exact hframe
    · exact hmember
    · exact hsp
    · exact Nat.le_trans hsp (by decide)
  have hbefore : (Machine.run (p.resolve.code 100).instrs 54 (.fresh 100)).1.Before (p.resolve.code 100)
      (Line.frame u e' ++ (p.resolve.code 100).drop 47) :=
    ⟨(p.resolve.code 100).take 44, by rw [← hlines, List.take_append_drop], hip⟩
  have hheap : (Machine.run (p.resolve.code 100).instrs 54 (.fresh 100)).1.HeapTo 3 :=
    ⟨hhp, hle, by omega, by rw [hsize]; decide⟩
  have hends := (hwalk _ _ _ _ _ hbefore hheap hlinked 2 (by omega)).2
  have hmem : r ∈ p.resolve.emitted := hinfix.subset (method.map_snd_emittedAt k f ▸ List.mem_map_of_mem hr)
  have hdeep : ¬ (r.nodes.all fun x => !x.use?.any fun u => decide (u.level = 3)) = true := fun hall => by
    have hnone := List.all_eq_true.1 hall x hxr
    rw [hu] at hnone
    simp [hdepth] at hnone
  obtain ⟨hcode, hblock, hload⟩ := of_decide_eq_true
    ((Bool.or_eq_true_iff.1 (List.all_eq_true.1 hroutines r hmem)).resolve_left hdeep)
  obtain ⟨⟨compilation, machine, st⟩, hrun, hst⟩ := exists_of_any hruns
  obtain rfl : st = .running := of_decide_eq_true hst
  obtain ⟨hcompile, -, -, hall⟩ := of_run hrun
  obtain ⟨p', ty, hp', -, -, rfl⟩ := compile_ok hcompile
  obtain rfl : p' = p := Except.ok.inj (hp'.symm.trans hp)
  have hmachine : Machine.run (p'.resolve.code 100).instrs 54 (.fresh 100) = (machine, .running) :=
    congrArg Prod.snd (Except.ok.inj ((hall 54).symm.trans hrun))
  rw [hmachine] at hlinked hload hstill hends
  have hloads : r.LoadsFrame (p'.resolve.code 100) 100 machine := ⟨_, _, _, _, hcode, hblock, hload⟩
  obtain ⟨h, link, hto, hlink, hlast⟩ := hlinks (by decide +kernel) 54 _ _ _ hrun hloads
  exact ⟨p', c, method, x, u, e', machine, _, hp, hd, hc, hmethod, hx, hu, he, hdepth, hlevel, hmachine, hlinked,
    Prod.ext rfl hstill, (hends.of_running (Prod.ext rfl hstill)).2, r, _, h, link, hrun, hxr, hloads, hto, hlink,
    hlast⟩

end FoolLang
