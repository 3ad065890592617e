import FoolLang.Proofs.Generate
import FoolLang.Proofs.VirtualTables
import Mathlib.Data.List.Perm.Basic
/-!
# Unresolved — a use left without its entry is reported

One pass over a program reports every use that it cannot resolve, at the step that looks the use up.  What it misses
are the bodies of the methods that are refused as members of their classes.  It does not look into these, so their uses
stay without entries, and the only error is that of the method (`Visit.refuses`).  A name that is not declared goes
unreported there (`refusedBodySource_unreported`), while it is reported in the body of a function declared twice or in a
method of a class declared twice.  Nothing else is missed (`Program.unresolved_reported`).
-/
namespace FoolLang

instance : DecidablePred Expr.Complete
  | .id _ u | .call _ u _ => inferInstanceAs (Decidable (u.entry.isSome = true))
  | .send _ u _ m _ => inferInstanceAs (Decidable (u.entry.isSome = true ∧ m.isSome = true))
  | .new _ _ e _ => inferInstanceAs (Decidable (e.isSome = true))
  | .int .. | .bool .. | .null .. | .binary .. | .not .. | .cond .. | .print .. => .isTrue trivial

/-- Whether an error is about a use: it names what is used, or the class or the method concerned, and carries the line
of the use. -/
def Expr.ReportedBy : Expr → NameError → Prop
  | .id l u, e => e = .notDeclared .value u.id l
  | .call l u _, e => e = .notDeclared .callee u.id l
  | .send l u m _ _, e =>
    e = .notDeclared .receiver u.id l ∨ e = .notAnObject u.id l ∨ ∃ c, e = .methodNotDeclared c m l
  | .new l c _ _, e => e = .notDeclared .cls c l
  | _, _ => False

theorem Expr.ReportedBy.line {n : Expr} {e : NameError} (h : n.ReportedBy e) : e.line = n.line := by
  cases n with
  | send l u m _ args => obtain rfl | rfl | ⟨c, rfl⟩ := h <;> rfl
  | id | call | new =>
    rw [Expr.ReportedBy] at h
    rw [h]
    rfl
  | _ => exact h.elim

/-- Whether an error is the refusal of a method: it names the method and carries its line. -/
def Method.RefusedBy (m : Method) (e : NameError) : Prop :=
  e = .alreadyDeclared .method m.id m.line ∨ e = .methodOverridesField m.id m.line

namespace Visit

/-- The expression a step leaves behind, with the entries it was given. -/
def resolved : Visit → List Expr
  | node env e => [e.resolve env]
  | _ => []

/-- The method a step refuses. -/
def refused : Visit → List Method
  | method _ s m =>
    match s.methodSlot m.id with
    | .ok _ => []
    | .error _ => [m]
  | _ => []

/-- What a step leaves in the resolved program: an expression with the entries it was given, or the body of a method
that is not looked into. -/
def leaves (v : Visit) : List Expr := v.resolved ++ v.refused.flatMap Method.nodes

end Visit

/-- The uses and other expressions that the pass over a program looks into, resolved. -/
def Program.lookedInto (p : Program) : List Expr := p.visits.flatMap Visit.resolved

/-- The methods of a program that are refused as members of their classes. -/
def Program.refused (p : Program) : List Method := p.visits.flatMap Visit.refused

/-- Lists that are matched piece by piece are matched. -/
theorem sublistForall₂_flatMap {α β γ : Type} {R : β → γ → Prop} {f : α → List β} {g : α → List γ} : ∀ {l : List α},
    (∀ a ∈ l, List.SublistForall₂ R (f a) (g a)) → List.SublistForall₂ R (l.flatMap f) (l.flatMap g)
  | [], _ => .nil
  | a :: l, h => by
    obtain ⟨ha, hl⟩ := List.forall_mem_cons.1 h
    obtain ⟨as, hf, hg⟩ := List.sublistForall₂_iff.1 ha
    obtain ⟨bs, hfs, hgs⟩ := List.sublistForall₂_iff.1 (sublistForall₂_flatMap hl)
    exact List.sublistForall₂_iff.2 ⟨as ++ bs, List.rel_append hf hfs, hg.append hgs⟩

/-- What is matched has a match of its own. -/
theorem exists_of_sublistForall₂ {α β : Type} {R : α → β → Prop} {as : List α} {bs : List β}
    (h : List.SublistForall₂ R as bs) : ∀ a ∈ as, ∃ b ∈ bs, R a b := by
  induction h with
  | nil => exact nofun
  | @cons a b as bs hab _ ih =>
    refine List.forall_mem_cons.2 ⟨⟨b, List.mem_cons_self, hab⟩, fun x hx => ?_⟩
    obtain ⟨y, hy, hxy⟩ := ih x hx
    exact ⟨y, List.mem_cons_of_mem _ hy, hxy⟩
  | @cons_right b as bs _ ih =>
    intro x hx
    obtain ⟨y, hy, hxy⟩ := ih x hx
    exact ⟨y, List.mem_cons_of_mem _ hy, hxy⟩

/-! ## What is left of an expression -/

mutual

theorem Expr.nodes_resolve (env : Env) : ∀ e : Expr, (e.resolve env).nodes = e.nodes.map (Expr.resolve env)
  | .int _ _ | .bool _ _ | .null _ | .id _ _ => rfl
  | .binary _ _ a b => by simp [Expr.resolve, Expr.nodes, a.nodes_resolve env, b.nodes_resolve env]
  | .not _ a | .print _ a => by simp [Expr.resolve, Expr.nodes, a.nodes_resolve env]
  | .cond _ c t e => by
    simp [Expr.resolve, Expr.nodes, c.nodes_resolve env, t.nodes_resolve env, e.nodes_resolve env]
  | .call _ _ args | .new _ _ _ args => by simp [Expr.resolve, Expr.nodes, argNodes_resolve env args]
  | .send _ u m _ args => by
    simp only [Expr.resolve, Expr.nodes, List.map_cons, ← argNodes_resolve env args]
    cases env.sendTarget u.id m <;> rfl

theorem argNodes_resolve (env : Env) : ∀ es : List Expr,
    argNodes (resolveArgs env es) = (argNodes es).map (Expr.resolve env)
  | [] => rfl
  | e :: es => by simp [resolveArgs, argNodes, e.nodes_resolve env, argNodes_resolve env es]

end

theorem Expr.flatMap_leaves_visits (env : Env) (e : Expr) :
    (e.visits env).flatMap Visit.leaves = (e.resolve env).nodes := by
  rw [e.nodes_resolve env, Expr.visits, List.flatMap_map, List.map_eq_flatMap]
  rfl

theorem flatMap_leaves_paramVisits : ∀ (ps : List Param) (offset : Int) (env : Env),
    (paramVisits offset env ps).flatMap Visit.leaves = []
  | [], _, _ => rfl
  | _ :: ps, _, _ => flatMap_leaves_paramVisits ps _ _

mutual

theorem Dec.flatMap_leaves_visits : ∀ (d : Dec) (env : Env),
    (d.visits env).flatMap Visit.leaves = (d.resolve env).nodes
  | .var _ _ _ v, env => by
    rw [Dec.visits, List.flatMap_append, v.flatMap_leaves_visits env]
    exact List.append_nil _
  | .func _ _ _ _ locals body, env => by
    rw [Dec.visits, List.flatMap_cons, List.flatMap_append, List.flatMap_append, flatMap_leaves_paramVisits,
      flatMap_leaves_localVisits _ locals, body.flatMap_leaves_visits]
    rfl

theorem flatMap_leaves_localVisits : ∀ (env : Env) (ds : List Dec),
    (localVisits env ds).flatMap Visit.leaves = localNodes (resolveLocals env ds)
  | _, [] => rfl
  | env, d :: ds => by
    rw [localVisits, resolveLocals, localNodes, List.flatMap_append, d.flatMap_leaves_visits env,
      flatMap_leaves_localVisits (env.after d) ds]

end

theorem Method.flatMap_leaves_visits (env : Env) (m : Method) :
    (m.visits env).flatMap Visit.leaves = (m.resolve env).nodes := by
  rw [Method.visits, List.flatMap_append, List.flatMap_append, flatMap_leaves_paramVisits, flatMap_leaves_localVisits,
    Expr.flatMap_leaves_visits]
  rfl

/-! ## What is left of a class -/

theorem flatMap_leaves_fieldVisits (env : Env) : ∀ (fs : List Field) (s : Members),
    (fieldVisits env s fs).flatMap Visit.leaves = []
  | [], _ => rfl
  | _ :: fs, _ => flatMap_leaves_fieldVisits env fs _

/-- **The methods of a class are left resolved or, where they are refused, as they were.** -/
theorem nodes_resolveMethods_perm (env inner : Env) : ∀ (ms : List Method) (s : Members),
    ((resolveMethods inner (env.level + 1) s ms).flatMap Method.nodes).Perm
      ((methodVisits env s ms ++ bodyVisits inner (env.level + 1) s ms).flatMap Visit.leaves)
  | [], _ => .nil
  | m :: ms, s => by
    have ih := nodes_resolveMethods_perm env inner ms (s.addMethod (env.level + 1) m)
    rw [List.flatMap_append] at ih
    simp only [resolveMethods, bodyVisits, methodVisits, List.cons_append, List.flatMap_cons, List.flatMap_append,
      Visit.leaves, Visit.resolved, Visit.refused]
    cases s.methodSlot m.id with
    | ok offset =>
      -- the steps inside the method are taken after those over the methods that follow it
      have hm : Method.nodes { m.resolve inner with offset := offset } = (m.visits inner).flatMap Visit.leaves :=
        (m.flatMap_leaves_visits inner).symm
      simp only [hm]
      exact (ih.append_left _).trans (List.perm_append_comm_assoc _ _ _)
    | error r =>
      simpa using ih.append_left m.nodes

theorem Class.nodes_resolve_perm (env : Env) (c : Class) :
    (c.resolve env).nodes.Perm ((c.visits env).flatMap Visit.leaves) := by
  have h := nodes_resolveMethods_perm env (env.inClass c) c.methods (env.withFields c)
  rw [Class.visits, List.flatMap_cons, List.append_assoc, List.flatMap_append, flatMap_leaves_fieldVisits]
  exact h

theorem nodes_resolveClasses_perm : ∀ (cs : List Class) (env : Env),
    ((resolveClasses env cs).flatMap Class.nodes).Perm ((classVisits env cs).flatMap Visit.leaves)
  | [], _ => .nil
  | c :: cs, env => by
    rw [resolveClasses, classVisits, List.flatMap_cons, List.flatMap_append]
    exact (c.nodes_resolve_perm env).append (nodes_resolveClasses_perm cs (env.afterClass c))

/-- **A resolved program holds what the pass looked into and the bodies of the refused methods.** -/
theorem Program.nodes_resolve_perm (p : Program) :
    p.resolve.nodes.Perm (p.lookedInto ++ p.refused.flatMap Method.nodes) := by
  have h : p.resolve.nodes.Perm (p.visits.flatMap Visit.leaves) := by
    cases p with
    | expr body => exact .of_eq (body.flatMap_leaves_visits _).symm
    | letIn cs ds body =>
      rw [Program.visits, List.flatMap_append, List.flatMap_append, flatMap_leaves_localVisits,
        Expr.flatMap_leaves_visits]
      exact ((nodes_resolveClasses_perm cs _).append_right _).append_right _
  rw [Program.lookedInto, Program.refused, List.flatMap_assoc]
  exact h.trans (List.flatMap_append_perm _ _ _).symm

/-! ## What is reported -/

theorem Env.use_complete_or_reported (env : Env) (kind : UseKind) (x : Ident) (l : Nat) :
    (env.use x).entry.isSome ∨ env.useErrors kind x l = [.notDeclared kind x l] := by
  unfold use useErrors
  cases env.lookup x with
  | none => exact .inr rfl
  | some e => exact .inl rfl

/-- **A use that gets no entry is reported where it is looked up**, by one error. -/
theorem Expr.complete_or_reported {env : Env} (h : env.Sound) (e : Expr) :
    (e.resolve env).Complete ∨ ∃ err, e.ownNameErrors env = [err] ∧ (e.resolve env).ReportedBy err := by
  cases e with
  | id l u =>
    exact (env.use_complete_or_reported .value u.id l).imp_right fun he =>
      ⟨_, he, by rw [Expr.resolve, Expr.ReportedBy, env.use_id]⟩
  | call l u args =>
    exact (env.use_complete_or_reported .callee u.id l).imp_right fun he =>
      ⟨_, he, by rw [Expr.resolve, Expr.ReportedBy, env.use_id]⟩
  | send l u m _ args =>
    rw [Expr.resolve, Expr.ownNameErrors, Env.sendErrors]
    cases env.sendTarget u.id m with
    | ok t => exact .inl ⟨rfl, rfl⟩
    | error r =>
      refine .inr ?_
      cases r with
      | noReceiver => exact ⟨_, rfl, .inl rfl⟩
      | notAnObject => exact ⟨_, rfl, .inr (.inl rfl)⟩
      | noMethod c => exact ⟨_, rfl, .inr (.inr ⟨c, rfl⟩)⟩
  | new l c _ args =>
    rw [Expr.resolve, Expr.ownNameErrors, Env.newErrors]
    -- a class that has a virtual table has an entry in the global scope too
    cases ht : (env.tables.lookup c).isSome with
    | false => exact .inr ⟨_, rfl, rfl⟩
    | true =>
      refine .inl ?_
      rw [Expr.Complete, Env.instantiable, if_pos ht]
      exact h.known c ht
  | _ => exact .inl trivial

/-- What a step leaves open is matched by what is wrong at it. -/
def Visit.Reports (v : Visit) : Prop :=
  List.SublistForall₂ Expr.ReportedBy (v.resolved.filter fun n => ¬n.Complete) v.errors

theorem Expr.visits_report {env : Env} (h : env.Sound) (e : Expr) : ∀ v ∈ e.visits env, v.Reports := by
  intro v hv
  obtain ⟨n, -, rfl⟩ := List.mem_map.1 hv
  show List.SublistForall₂ _ ([n.resolve env].filter _) (n.ownNameErrors env)
  by_cases hc : (n.resolve env).Complete
  · rw [List.filter_cons_of_neg (by simpa using hc)]
    exact .nil
  · obtain ⟨err, he, hr⟩ := (n.complete_or_reported h).resolve_left hc
    rw [List.filter_cons_of_pos (by simpa using hc), he]
    exact .cons hr .nil

theorem paramVisits_report : ∀ (ps : List Param) {offset : Int} {env : Env}, ∀ v ∈ paramVisits offset env ps, v.Reports
  | [], _, _ => nofun
  | _ :: ps, _, _ => List.forall_mem_cons.2 ⟨.nil, paramVisits_report ps⟩

mutual

theorem Dec.visits_report : ∀ (d : Dec) {env : Env}, env.Sound → ∀ v ∈ d.visits env, v.Reports
  | .var _ _ _ e, _, h => List.forall_mem_append.2 ⟨e.visits_report h, List.forall_mem_singleton.2 .nil⟩
  | .func _ x ret params locals body, _, h => by
    have hinner := (h.declare x (.function (signatureOf params ret))).inRoutine params
    exact List.forall_mem_cons.2 ⟨.nil, List.forall_mem_append.2 ⟨List.forall_mem_append.2
      ⟨paramVisits_report params, localVisits_report locals hinner⟩, body.visits_report (hinner.afterAll locals)⟩⟩

theorem localVisits_report : ∀ (ds : List Dec) {env : Env}, env.Sound → ∀ v ∈ localVisits env ds, v.Reports
  | [], _, _ => nofun
  | d :: ds, _, h => List.forall_mem_append.2 ⟨d.visits_report h, localVisits_report ds (h.after d)⟩

end

theorem Method.visits_report {env : Env} (h : env.Sound) (m : Method) : ∀ v ∈ m.visits env, v.Reports := by
  have hinner := h.inRoutine m.params
  exact List.forall_mem_append.2 ⟨List.forall_mem_append.2
    ⟨paramVisits_report m.params, localVisits_report m.locals hinner⟩, m.body.visits_report (hinner.afterAll m.locals)⟩

theorem fieldVisits_report (env : Env) : ∀ (fs : List Field) (s : Members), ∀ v ∈ fieldVisits env s fs, v.Reports
  | [], _ => nofun
  | _ :: fs, _ => List.forall_mem_cons.2 ⟨.nil, fieldVisits_report env fs _⟩

theorem methodVisits_report (env : Env) : ∀ (ms : List Method) (s : Members), ∀ v ∈ methodVisits env s ms, v.Reports
  | [], _ => nofun
  | _ :: ms, _ => List.forall_mem_cons.2 ⟨.nil, methodVisits_report env ms _⟩

theorem Class.visits_report {env : Env} (h : env.Sound) (ht : env.AtTop) (c : Class) :
    ∀ v ∈ c.visits env, v.Reports := by
  refine List.forall_mem_cons.2 ⟨.nil, List.forall_mem_append.2 ⟨List.forall_mem_append.2
    ⟨fieldVisits_report env c.fields _, methodVisits_report env c.methods _⟩, fun v hv => ?_⟩⟩
  obtain ⟨m, -, hv⟩ := exists_of_mem_bodyVisits hv
  exact m.visits_report (h.inClass ht c) v hv

theorem classVisits_report : ∀ (cs : List Class) {env : Env}, env.Sound → env.AtTop →
    ∀ v ∈ classVisits env cs, v.Reports
  | [], _, _, _ => nofun
  | c :: cs, _, h, ht => List.forall_mem_append.2
    ⟨c.visits_report h ht, classVisits_report cs (h.afterClass ht c) (ht.afterClass c)⟩

theorem Program.visits_report (p : Program) : ∀ v ∈ p.visits, v.Reports :=
  List.forall_mem_append.2 ⟨List.forall_mem_append.2
    ⟨classVisits_report p.classes (Env.sound_initial _) ⟨[], rfl⟩, localVisits_report p.decs p.sound_classEnv⟩,
    p.body.visits_report p.sound_mainEnv⟩

/-- **A step that refuses a method reports it.** -/
theorem Visit.refuses (v : Visit) : List.SublistForall₂ Method.RefusedBy v.refused v.errors := by
  cases v with
  | method env s m =>
    show List.SublistForall₂ _ _ (env.typeNameErrors m.ret m.line ++ s.methodErrors m)
    suffices h : List.SublistForall₂ Method.RefusedBy (Visit.method env s m).refused (s.methodErrors m) by
      obtain ⟨es, hr, hsub⟩ := List.sublistForall₂_iff.1 h
      exact List.sublistForall₂_iff.2 ⟨es, hr, hsub.trans (List.sublist_append_right _ _)⟩
    rw [Visit.refused, Members.methodErrors]
    cases s.methodSlot m.id with
    | ok offset => exact .nil
    | error r =>
      cases r with
      | repeated => exact .cons (.inl rfl) .nil
      | clashes => exact .cons (.inr rfl) .nil
  | _ => exact .nil

/-- **One pass reports every unresolved use that it looks at.** A resolved program holds what the pass looked into and
the bodies of the refused methods.  Of the former, each node left without an entry has an error of its own, which names
what is used, or the class or the method concerned, and carries the line of the use; each of the latter has an error of
its own too, which names the method and carries its line. -/
theorem Program.unresolved_reported (p : Program) :
    p.resolve.nodes.Perm (p.lookedInto ++ p.refused.flatMap Method.nodes) ∧
    List.SublistForall₂ Expr.ReportedBy (p.lookedInto.filter fun n => ¬n.Complete) p.nameErrors ∧
    List.SublistForall₂ Method.RefusedBy p.refused p.nameErrors ∧
    ∀ n ∈ p.resolve.nodes, ¬n.Complete → (∃ e ∈ p.nameErrors, n.ReportedBy e) ∨
      ∃ m ∈ p.refused, n ∈ m.nodes ∧ ∃ e ∈ p.nameErrors, m.RefusedBy e := by
  have hseen : List.SublistForall₂ Expr.ReportedBy (p.lookedInto.filter fun n => ¬n.Complete) p.nameErrors := by
    rw [p.nameErrors_eq_visits, Program.lookedInto, List.filter_flatMap]
    exact sublistForall₂_flatMap p.visits_report
  have hrefused : List.SublistForall₂ Method.RefusedBy p.refused p.nameErrors := by
    rw [p.nameErrors_eq_visits]
    exact sublistForall₂_flatMap fun v _ => v.refuses
  refine ⟨p.nodes_resolve_perm, hseen, hrefused, fun n hn hc => ?_⟩
  rcases List.mem_append.1 (p.nodes_resolve_perm.mem_iff.1 hn) with hn | hn
  · exact .inl (exists_of_sublistForall₂ hseen n (List.mem_filter.2 ⟨hn, by simpa using hc⟩))
  · obtain ⟨m, hm, hn⟩ := List.mem_flatMap.1 hn
    exact .inr ⟨m, hm, hn, exists_of_sublistForall₂ hrefused m hm⟩

/-- A source that declares a method twice, and uses in the second body a name that is not declared. -/
def refusedBodySource : List Char :=
  "let class A () \x7b\n  fun m: int () 1;\n  fun m: int ()\n    z;\n\x7d in 0;".toList

/-- **A use in the body of a refused method is not reported**: the one error names the method, and carries its line. -/
theorem refusedBodySource_unreported : ∃ p n, parse refusedBodySource = .ok p ∧ n ∈ p.resolve.nodes ∧ ¬n.Complete ∧
    p.nameErrors = [.alreadyDeclared .method ⟨"m".toList⟩ 3] ∧
    ∀ e ∈ p.nameErrors, ¬n.ReportedBy e ∧ e.line ≠ n.line := by
  have hparsed : ((parse refusedBodySource).toOption.any fun p =>
      decide (p.nameErrors = [.alreadyDeclared .method ⟨"m".toList⟩ 3]) &&
        p.resolve.nodes.any fun n => decide (¬n.Complete ∧ n.line = 4)) = true := by
    decide +kernel
  obtain ⟨p, hp, hm⟩ := exists_of_any hparsed
  simp only [Bool.and_eq_true, decide_eq_true_eq, List.any_eq_true] at hm
  obtain ⟨herrors, n, hn, hopen, hline⟩ := hm
  have hlines : ∀ e ∈ p.nameErrors, e.line ≠ n.line := by
    rw [herrors, hline]
    decide
  exact ⟨p, n, hp, hn, hopen, herrors, fun e he => ⟨fun hr => hlines e he hr.line, hlines e he⟩⟩

end FoolLang
