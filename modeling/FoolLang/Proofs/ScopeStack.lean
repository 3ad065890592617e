import FoolLang.Proofs.Enclosed
import FoolLang.Proofs.Traversal
import FoolLang.Proofs.VirtualTables
/-!
# ScopeStack — scopes nested as deep as the level

Wherever a name is looked up or declared, one scope more is open than the level says, and the entries of each scope lie
at the level of that scope (`Env.Stacked`).  Two ways of opening a scope keep this up, that of a routine and that of the
members of a class, which may have been inherited from another class.  Each part of a program leaves the stack as high
as it was (`Part.Restores`), so the place of a declaration alone tells its offset (`DeclPlace.Gives`), and no use has an
entry further in than itself (`scopes_stay_stacked`).
-/
namespace FoolLang

open Text Assembly Traverse

/-- The entries of a scope lie at a level. -/
def Scope.LiesAt (n : Nat) (S : Scope) : Prop := ∀ p ∈ S, p.2.level = n

theorem Scope.LiesAt.nil (n : Nat) : Scope.LiesAt n [] := fun _ hp => nomatch hp

theorem Scope.LiesAt.cons {n : Nat} {S : Scope} (h : S.LiesAt n) (x : Ident) {e : Entry} (he : e.level = n) :
    Scope.LiesAt n ((x, e) :: S) := List.forall_mem_cons.2 ⟨he, h⟩

/-- Scopes, innermost first, whose entries lie at the level that is the position of their scope from the outermost. -/
def Nested (Ss : List Scope) : Prop := ∀ i (S : Scope), Ss.reverse[i]? = some S → S.LiesAt i

theorem nested_cons {S : Scope} {Ss : List Scope} : Nested (S :: Ss) ↔ S.LiesAt Ss.length ∧ Nested Ss := by
  unfold Nested
  rw [List.reverse_cons]
  constructor
  · refine fun h => ⟨h Ss.length S ?_, fun i T hT => h i T ?_⟩
    · rw [List.getElem?_append_right (by simp)]
      simp
    · rw [List.getElem?_append_left (List.getElem?_eq_some_iff.1 hT).1]
      exact hT
  · rintro ⟨hS, hSs⟩ i T hT
    rw [List.getElem?_append] at hT
    split at hT
    · exact hSs i T hT
    · rename_i hi
      obtain ⟨hzero, rfl⟩ : i - Ss.reverse.length = 0 ∧ S = T := by simpa [List.getElem?_singleton] using hT
      obtain rfl : i = Ss.length := by
        rw [List.length_reverse] at hi hzero
        omega
      exact hS

/-- As many scopes are open as the level says, besides the global one, and each holds entries of its own level. -/
structure Env.Stacked (env : Env) : Prop where
  depth : env.scopes.length = env.level + 1
  nested : Nested env.scopes

namespace Env.Stacked

variable {env env' : Env}

theorem initial (names : List Ident) : (Env.initial names).Stacked :=
  ⟨rfl, nested_cons.2 ⟨.nil 0, fun _ _ hS => nomatch hS⟩⟩

theorem of_eq (h : env.Stacked) (hs : env'.scopes = env.scopes) (hl : env'.level = env.level) : env'.Stacked :=
  ⟨by rw [hs, hl, h.depth], hs ▸ h.nested⟩

/-- A scope of entries one level deeper may be opened. -/
theorem push (h : env.Stacked) {S : Scope} (hS : S.LiesAt (env.level + 1)) (hs : env'.scopes = S :: env.scopes)
    (hl : env'.level = env.level + 1) : env'.Stacked where
  depth := by rw [hs, hl, List.length_cons, h.depth]
  nested := by
    rw [hs, nested_cons, h.depth]
    exact ⟨hS, h.nested⟩

/-- A scope that is not the global one may be closed. -/
theorem pop (h : env.Stacked) (hs : env'.scopes = env.scopes.tail) (hl : env'.level + 1 = env.level) :
    env'.Stacked := by
  obtain ⟨hdepth, hnested⟩ := h
  rw [← hl] at hdepth
  cases hscopes : env.scopes with
  | nil => rw [hscopes] at hdepth; cases hdepth
  | cons S Ss =>
    rw [hscopes] at hdepth hnested hs
    exact ⟨by rw [hs]; exact Nat.succ.inj hdepth, hs ▸ (nested_cons.1 hnested).2⟩

theorem insert (h : env.Stacked) (x : Ident) {e : Entry} (he : e.level = env.level) : (env.insert x e).Stacked := by
  obtain ⟨hdepth, hnested⟩ := h
  unfold Env.insert
  split
  · exact ⟨hdepth, hnested⟩
  · rename_i S Ss hscopes
    rw [hscopes] at hdepth hnested
    obtain ⟨hS, hSs⟩ := nested_cons.1 hnested
    exact ⟨hdepth, nested_cons.2 ⟨hS.cons x (he.trans (Nat.succ.inj hdepth).symm), hSs⟩⟩

/-- What is found lies no deeper than the place it is looked up at. -/
theorem lookup (h : env.Stacked) {x : Ident} {e : Entry} (he : env.lookup x = some e) : e.level ≤ env.level := by
  obtain ⟨S, hS, hx⟩ := List.exists_of_findSome?_eq_some he
  obtain ⟨i, hi⟩ := List.getElem?_of_mem (List.mem_reverse.2 hS)
  have hlevel : e.level = i := h.nested i S hi _ (mem_of_lookup hx)
  have hlt := (List.getElem?_eq_some_iff.1 hi).1
  rw [List.length_reverse, h.depth] at hlt
  omega

end Env.Stacked

/-! ## Events -/

/-- What is entered at a place: the declaration after `k` others has offset -2 - k, the `i`-th parameter `i`, and a
member lies one level deeper than its class. -/
def DeclPlace.Gives (place : DeclPlace) (env : Env) (e : Entry) : Prop :=
  match place with
  | dec k => e.level = env.level ∧ e.offset = -2 - (k : Int)
  | param i => e.level = env.level ∧ e.offset = i
  | member => e.level = env.level + 1

/-- A part leaves the level and the stack of scopes as high as they were, and the next offset where it was but for the
one that it takes itself. -/
structure Part.Restores (part : Part) (before after : Env) : Prop where
  level : after.level = before.level
  scopes : after.scopes.length = before.scopes.length
  next : after.next = before.next - (part.offsets : Int)

def Event.Sound : Event → Prop
  | lookup env _ => env.Stacked
  | declare env place _ e => env.Stacked ∧ place.Gives env e
  | visit part before after => part.Restores before after

/-- Where `k` offsets are taken in the innermost scope, at level `n`. -/
structure Env.At (n k : Nat) (env : Env) : Prop where
  stacked : env.Stacked
  level : env.level = n
  next : env.next = -2 - (k : Int)
  tables : ∀ t ∈ env.tables, t.2.LiesAt 1

/-- Besides, all that has happened so far was in order. -/
structure Traversal.At (n k : Nat) (s : Traversal) : Prop where
  env : s.env.At n k
  events : ∀ event ∈ s.events, event.Sound

namespace Env.At

variable {env : Env} {n k : Nat}

theorem initial (names : List Ident) : (Env.initial names).At 0 0 := ⟨.initial names, rfl, rfl, nofun⟩

theorem insert (h : env.At n k) (x : Ident) {e : Entry} (he : e.level = n) : (env.insert x e).At n k where
  stacked := h.stacked.insert x (he.trans h.level.symm)
  level := (insert_level env x e).trans h.level
  next := (insert_next env x e).trans h.next
  tables := by rw [insert_tables]; exact h.tables

theorem restores {part : Part} {before after : Env} (hb : before.At n k) (ha : after.At n (k + part.offsets)) :
    part.Restores before after where
  level := ha.level.trans hb.level.symm
  scopes := by rw [ha.stacked.depth, hb.stacked.depth, ha.level, hb.level]
  next := by rw [ha.next, hb.next, Int.natCast_add, Int.sub_sub]

end Env.At

/-! ## Steps of a traversal -/

namespace Traverse

/-- Where `k` offsets are taken at level `n`, a traversal comes to something with `φ`, and then `k'` are taken at level
`n'`. -/
def Leads {α : Type} (n k : Nat) (w : Traverse α) (φ : α → Prop) (n' k' : Nat) : Prop :=
  ∀ s : Traversal, s.At n k → φ (w.run s).1 ∧ (w.run s).2.At n' k'

/-- For results that do not matter. -/
abbrev Anything {α : Type} : α → Prop := fun _ => True

namespace Leads

variable {α β : Type} {w : Traverse α} {f : α → Traverse β} {φ : α → Prop} {ψ : β → Prop} {n n' n'' k k' k'' : Nat}

theorem pure {a : α} (h : φ a) : Leads n k (pure a) φ n k := fun _ hs => ⟨h, hs⟩

theorem bind (hw : Leads n k w φ n' k') (hf : ∀ a, φ a → Leads n' k' (f a) ψ n'' k'') :
    Leads n k (w >>= f) ψ n'' k'' := fun s hs =>
  have h := hw s hs
  hf _ h.1 _ h.2

theorem visible : Leads n k Traverse.visible (·.At n k) n k := fun _ hs => ⟨hs.env, hs⟩

theorem change {g : Env → Env} (h : ∀ env, env.At n k → (g env).At n' k') :
    Leads n k (Traverse.change g) Anything n' k' := fun _ hs => ⟨trivial, h _ hs.env, hs.events⟩

theorem report (es : List NameError) : Leads n k (Traverse.report es) Anything n k :=
  fun _ hs => ⟨trivial, hs.env, hs.events⟩

theorem note {event : Env → Event} (h : ∀ env, env.At n k → (event env).Sound) :
    Leads n k (Traverse.note event) Anything n k := fun s hs =>
  ⟨trivial, hs.env, List.forall_mem_append.2 ⟨hs.events, List.forall_mem_singleton.2 (h s.env hs.env)⟩⟩

theorem noteLookup (x : Ident) : Leads n k (Traverse.note (.lookup · x)) Anything n k := note fun _ he => he.stacked

theorem lookUp (x : Ident) : Leads n k (lookUp x) (·.At n k) n k := (noteLookup x).bind fun _ _ => visible

theorem takeOffset (hk : k + 2 ≤ maxInt32) : Leads n k takeOffset (· = -2 - (k : Int)) n (k + 1) := by
  refine visible.bind fun env henv => (change fun env' h => ?_).bind fun _ _ => pure henv.next
  refine ⟨h.stacked.of_eq rfl rfl, h.level, ?_, h.tables⟩
  show wrapOffset (env'.next - 1) = _
  rw [h.next, wrapOffset_of_fits]
  · omega
  · unfold FitsWord
    omega

theorem noteDeclare {place : DeclPlace} (x : Ident) {e : Entry} (h : ∀ env, env.At n k → place.Gives env e) :
    Leads n k (Traverse.note (.declare · place x e)) Anything n k := note fun env henv => ⟨henv.stacked, h env henv⟩

theorem declare {place : DeclPlace} {e : Entry} (kind : DeclKind) (x : Ident) (line : Nat) (he : e.level = n)
    (h : ∀ env, env.At n k → place.Gives env e) : Leads n k (declare place kind x e line) Anything n k :=
  (noteDeclare x h).bind fun _ _ => visible.bind fun _ _ => (report _).bind fun _ _ =>
    change fun _ henv => henv.insert x he

/-- **A declaration takes the offset that its place tells.** -/
theorem declareNext (kind : DeclKind) (x : Ident) (ty : Ty) (line : Nat) (hk : k + 2 ≤ maxInt32) :
    Leads n k (declareNext k kind x ty line) Anything n (k + 1) := by
  refine visible.bind fun env henv => (takeOffset hk).bind fun offset hoffset => ?_
  exact declare kind x line henv.level fun env' henv' => ⟨henv.level.trans henv'.level.symm, hoffset⟩

theorem enterRoutine : Leads n k enterRoutine (· = -2 - (k : Int)) (n + 1) 0 :=
  visible.bind fun _ henv => (change (g := Env.enter) fun _ h => ⟨h.stacked.push (.nil _) rfl rfl,
    congrArg (· + 1) h.level, rfl, h.tables⟩).bind fun _ _ => pure henv.next

theorem leaveRoutine {next : Int} (h : next = -2 - (k' : Int)) :
    Leads (n + 1) k (leaveRoutine next) Anything n k' :=
  change fun env henv =>
    have hlevel : env.level - 1 + 1 = env.level := by rw [henv.level]; rfl
    ⟨henv.stacked.pop rfl hlevel, Nat.succ.inj (hlevel.trans henv.level), h, henv.tables⟩

theorem enterMembers {table : Scope} (h : table.LiesAt (n + 1)) :
    Leads n k (enterMembers (n + 1) table) Anything (n + 1) k :=
  change fun _ henv => ⟨henv.stacked.push (henv.level ▸ h) rfl (congrArg (· + 1) henv.level.symm), rfl,
    henv.next, henv.tables⟩

theorem leaveMembers : Leads (n + 1) k (leaveMembers (n + 1)) Anything n k :=
  change fun _ henv => ⟨henv.stacked.pop rfl henv.level.symm, rfl, henv.next, henv.tables⟩

theorem visit (part : Part) (hw : Leads n k w φ n (k + part.offsets)) :
    Leads n k (visit part w) φ n (k + part.offsets) := by
  refine visible.bind fun before hbefore => hw.bind fun _ ha => ?_
  have hnote : Leads n (k + part.offsets) (Traverse.note (.visit part before ·)) Anything n (k + part.offsets) :=
    note fun _ hafter => hbefore.restores hafter
  exact hnote.bind fun _ _ => pure ha

end Leads

end Traverse

/-! ## Expressions -/

/-- The use of a node has no entry that lies deeper than the node. -/
def Expr.Outward (x : Expr) : Prop := ∀ u e, x.use? = some u → u.entry = some e → e.level ≤ u.level

theorem Env.Stacked.use {env : Env} (h : env.Stacked) {x : Ident} {e : Entry} (he : (env.use x).entry = some e) :
    e.level ≤ (env.use x).level := by
  obtain ⟨hx, huse⟩ := Env.use_entry he
  rw [huse]
  exact h.lookup hx

section

variable {n k : Nat}

mutual

theorem Expr.traverse_leads : ∀ e : Expr, Leads n k e.traverse (fun e' => ∀ x ∈ e'.nodes, x.Outward) n k
  | .int _ _ | .bool _ _ | .null _ => .visit .expr <| .pure fun x hx => by
    obtain rfl := List.mem_singleton.1 hx
    exact nofun
  | .binary _ _ a b => .visit .expr <| a.traverse_leads.bind fun _ ha => b.traverse_leads.bind fun _ hb =>
    .pure (Expr.forall_nodes_binary.2 ⟨nofun, ha, hb⟩)
  | .not _ a => .visit .expr <| a.traverse_leads.bind fun _ ha => .pure (Expr.forall_nodes_not.2 ⟨nofun, ha⟩)
  | .print _ a => .visit .expr <| a.traverse_leads.bind fun _ ha => .pure (Expr.forall_nodes_print.2 ⟨nofun, ha⟩)
  | .cond _ c t e => .visit .expr <| c.traverse_leads.bind fun _ hc => t.traverse_leads.bind fun _ ht =>
    e.traverse_leads.bind fun _ he => .pure (Expr.forall_nodes_cond.2 ⟨nofun, hc, ht, he⟩)
  | .id _ u => .visit .expr <| (Leads.lookUp u.id).bind fun env henv => (Leads.report _).bind fun _ _ =>
    .pure fun x hx => by
      obtain rfl := List.mem_singleton.1 hx
      rintro v e ⟨⟩ he
      exact henv.stacked.use he
  | .call _ u args => .visit .expr <| (Leads.lookUp u.id).bind fun env henv => (Leads.report _).bind fun _ _ =>
    (traverseArgs_leads args).bind fun _ hargs => .pure (Expr.forall_nodes_call.2 ⟨by
      rintro v e ⟨⟩ he
      exact henv.stacked.use he, hargs⟩)
  | .send _ u m _ args => by
    refine .visit .expr <| (Leads.lookUp u.id).bind fun env henv => (Leads.report _).bind fun _ _ =>
      (traverseArgs_leads args).bind fun _ hargs => ?_
    cases htarget : env.sendTarget u.id m with
    | error r =>
      refine .pure (Expr.forall_nodes_send.2 ⟨?_, hargs⟩)
      rintro v e ⟨⟩ ⟨⟩
    | ok target =>
      refine .pure (Expr.forall_nodes_send.2 ⟨?_, hargs⟩)
      rintro v e ⟨⟩ ⟨⟩
      exact henv.stacked.lookup (Env.sendTarget_ok htarget).1
  | .new _ c _ args => .visit .expr <| (Leads.lookUp c).bind fun _ _ => (Leads.report _).bind fun _ _ =>
    (traverseArgs_leads args).bind fun _ hargs => .pure (Expr.forall_nodes_new.2 ⟨nofun, hargs⟩)

theorem traverseArgs_leads : ∀ es : List Expr,
    Leads n k (traverseArgs es) (fun es' => ∀ x ∈ argNodes es', x.Outward) n k
  | [] => .pure nofun
  | e :: es => e.traverse_leads.bind fun _ he => (traverseArgs_leads es).bind fun _ hes =>
    .pure (forall_argNodes_cons.2 ⟨he, hes⟩)

end

/-! ## Declarations -/

/-- **The `i`-th parameter takes offset `i`.** -/
theorem traverseParams_leads : ∀ (ps : List Param) {i : Nat}, i + ps.length ≤ maxInt32 →
    Leads n k (traverseParams i i ps) Anything n k
  | [], _, _ => .pure trivial
  | p :: ps, i, hi => by
    rw [List.length_cons] at hi
    have hnext : wrapOffset ((i : Int) + 1) = ((i + 1 : Nat) : Int) := by
      rw [wrapOffset_of_fits, Int.natCast_succ]
      unfold FitsWord
      omega
    refine Leads.visible.bind fun env henv => (Leads.report _).bind fun _ _ => ?_
    have hgives : ∀ env', env'.At n k → (DeclPlace.param i).Gives env' ⟨env.level, p.ty, i⟩ :=
      fun _ h => ⟨henv.level.trans h.level.symm, rfl⟩
    refine (Leads.declare .param p.id p.line henv.level hgives).bind fun _ _ => ?_
    rw [hnext]
    exact traverseParams_leads ps (by omega)

/-- **A routine leaves everything as it was**, given that its local declarations lead on from its scope. -/
theorem traverseRoutine_leads {params : List Param} {locals : Traverse (List Dec)} (body : Expr) {k' : Nat}
    (hp : 1 + params.length ≤ maxInt32)
    (hw : Leads (n + 1) 0 locals (fun ds => ∀ x ∈ localNodes ds, x.Outward) (n + 1) k') :
    Leads n k (traverseRoutine params locals body)
      (fun r => (∀ x ∈ localNodes r.1, x.Outward) ∧ ∀ x ∈ r.2.nodes, x.Outward) n k :=
  Leads.enterRoutine.bind fun _ hnext => (traverseParams_leads params hp).bind fun _ _ => hw.bind fun _ hds =>
    body.traverse_leads.bind fun _ hb => (Leads.leaveRoutine hnext).bind fun _ _ => .pure ⟨hds, hb⟩

mutual

theorem Dec.traverse_leads : ∀ (d : Dec) {n k : Nat}, k + d.binders + 2 ≤ maxInt32 →
    Leads n k (d.traverse k) (fun d' => ∀ x ∈ d'.nodes, x.Outward) n (k + 1)
  | .var l x ty v, _, k, hk => by
    rw [Dec.binders] at hk
    exact .visit .var <| v.traverse_leads.bind fun _ hv => Leads.visible.bind fun _ _ =>
      (Leads.report _).bind fun _ _ => (Leads.declareNext .var x ty l (by omega)).bind fun _ _ => .pure hv
  | .func l x ret params locals body, n, k, hk => by
    rw [Dec.binders] at hk
    have hlocals : Leads (n + 1) 0 (traverseLocals 0 locals) _ (n + 1) (0 + locals.length) :=
      traverseLocals_leads locals (by omega)
    exact .visit .func <| Leads.visible.bind fun _ _ => (Leads.report _).bind fun _ _ =>
      (Leads.declareNext .func x _ l (by omega)).bind fun _ _ =>
      (traverseRoutine_leads body (by omega) hlocals).bind fun _ hr => .pure (Dec.forall_nodes_func.2 hr)

theorem traverseLocals_leads : ∀ (ds : List Dec) {n k : Nat}, k + localBinders ds + 2 ≤ maxInt32 →
    Leads n k (traverseLocals k ds) (fun ds' => ∀ x ∈ localNodes ds', x.Outward) n (k + ds.length)
  | [], _, _, _ => .pure nofun
  | d :: ds, n, k, hk => by
    rw [localBinders] at hk
    have hone := one_le_binders d
    have htail : Leads n (k + 1) (traverseLocals (k + 1) ds) _ n (k + 1 + ds.length) :=
      traverseLocals_leads ds (by omega)
    rw [List.length_cons, Nat.add_comm ds.length 1, ← Nat.add_assoc]
    exact (d.traverse_leads (by omega)).bind fun _ hd => htail.bind fun _ hds =>
      .pure (forall_localNodes_cons.2 ⟨hd, hds⟩)

end

/-! ## Classes -/

theorem Method.traverse_leads (m : Method) (h : m.binders + 2 ≤ maxInt32) :
    Leads n k m.traverse (fun m' => ∀ x ∈ m'.nodes, x.Outward) n k := by
  rw [Method.binders] at h
  exact .visit .method <| (traverseRoutine_leads m.body (by omega)
    (traverseLocals_leads m.locals (by omega))).bind fun _ hr => .pure (Method.forall_nodes.2 hr)

theorem noteMember_leads (x : Ident) (ty : Ty) : ∀ slot : Except Refusal Int,
    Leads n k (noteMember (n + 1) x ty slot) Anything n k
  | .ok _ => .noteDeclare x fun _ henv => congrArg (· + 1) henv.level.symm
  | .error _ => .pure trivial

theorem traverseFields_leads {outer : Env} (hl : outer.level = n) : ∀ (fs : List Field) (s : Members),
    Leads n k (traverseFields outer s fs) Anything n k
  | [], _ => .pure trivial
  | f :: fs, s => (Leads.report _).bind fun _ _ => by
    rw [hl]
    exact (noteMember_leads f.id f.ty _).bind fun _ _ => traverseFields_leads hl fs _

theorem registerMethods_leads {outer : Env} (hl : outer.level = n) : ∀ (ms : List Method) (s : Members),
    Leads n k (registerMethods outer s ms) Anything n k
  | [], _ => .pure trivial
  | m :: ms, s => (Leads.report _).bind fun _ _ => by
    rw [hl]
    exact (noteMember_leads m.id _ _).bind fun _ _ => registerMethods_leads hl ms _

/-- A method that is refused is left as it is. -/
theorem Method.traverseIn_leads {m : Method} (h : m.binders + 2 ≤ maxInt32) (hm : ∀ x ∈ m.nodes, x.Outward) :
    ∀ slot : Except Refusal Int, Leads n k (m.traverseIn slot) (fun m' => ∀ x ∈ m'.nodes, x.Outward) n k
  | .ok _ => (m.traverse_leads h).bind fun _ h' => .pure h'
  | .error _ => .pure hm

theorem traverseMethods_leads (level : Nat) : ∀ (ms : List Method) (s : Members), methodBinders ms + 2 ≤ maxInt32 →
    (∀ m ∈ ms, ∀ x ∈ m.nodes, x.Outward) →
    Leads n k (traverseMethods level s ms) (fun ms' => ∀ m ∈ ms', ∀ x ∈ m.nodes, x.Outward) n k
  | [], _, _, _ => .pure nofun
  | m :: ms, s, hb, hms => by
    rw [methodBinders] at hb
    obtain ⟨hm, hms⟩ := List.forall_mem_cons.1 hms
    exact (Method.traverseIn_leads (by omega) hm _).bind fun _ hm' =>
      (traverseMethods_leads level ms _ (by omega) hms).bind fun _ hms' => .pure (List.forall_mem_cons.2 ⟨hm', hms'⟩)

theorem Class.lookUpSuper_leads (c : Class) : Leads n k c.lookUpSuper Anything n k := by
  unfold Class.lookUpSuper
  split
  · exact .pure trivial
  · exact .noteLookup _

end

section

variable {level : Nat}

theorem Members.addField_liesAt {s : Members} (h : s.table.LiesAt level) (f : Field) :
    (s.addField level f).table.LiesAt level := by
  unfold addField
  split
  · exact h
  · exact h.cons f.id rfl

theorem Members.addMethod_liesAt {s : Members} (h : s.table.LiesAt level) (m : Method) :
    (s.addMethod level m).table.LiesAt level := by
  unfold addMethod
  split
  · exact h
  · exact h.cons m.id rfl

theorem liesAt_foldl {α : Type} {add : Members → α → Members}
    (hadd : ∀ s a, s.table.LiesAt level → (add s a).table.LiesAt level) : ∀ (as : List α) {s : Members},
    s.table.LiesAt level → (as.foldl add s).table.LiesAt level
  | [], _, h => h
  | a :: as, _, h => liesAt_foldl hadd as (hadd _ a h)

end

/-- **Members lie at level 1**, the inherited ones as well as the own. -/
theorem Env.At.members {env : Env} {k : Nat} (h : env.At 0 k) (c : Class) : (env.members c).table.LiesAt 1 := by
  have hinherited : (env.inherited c).table.LiesAt 1 := by
    unfold Env.inherited
    split
    · exact nofun
    · split
      · exact nofun
      · rename_i htable
        exact h.tables _ (mem_of_lookup htable)
  unfold Env.members Env.withFields
  rw [h.level]
  exact liesAt_foldl (fun _ m hs => Members.addMethod_liesAt hs m) c.methods
    (liesAt_foldl (fun _ f hs => Members.addField_liesAt hs f) c.fields hinherited)

theorem Env.At.addClass {outer env : Env} {k k' : Nat} (ho : outer.At 0 k) (h : env.At 0 k') (c : Class) {e : Entry}
    (he : e.level = 0) : (outer.addClass c e env).At 0 k' :=
  have hinsert := h.insert c.id he
  ⟨hinsert.stacked.of_eq rfl rfl, hinsert.level, hinsert.next,
    List.forall_mem_cons.2 ⟨ho.members c, ho.tables⟩⟩

theorem Class.traverse_leads (c : Class) {k : Nat} (hk : k + c.binders + 2 ≤ maxInt32)
    (hc : ∀ m ∈ c.methods, ∀ x ∈ m.nodes, x.Outward) :
    Leads 0 k (c.traverse k) (fun c' => ∀ m ∈ c'.methods, ∀ x ∈ m.nodes, x.Outward) 0 (k + 1) := by
  rw [binders] at hk
  refine .visit .cls <| Leads.visible.bind fun env henv => c.lookUpSuper_leads.bind fun _ _ =>
    (Leads.report _).bind fun _ _ => (Leads.takeOffset (by omega)).bind fun offset hoffset =>
    (Leads.noteLookup c.id).bind fun _ _ => (Leads.report _).bind fun _ _ =>
    (traverseFields_leads henv.level c.fields _).bind fun _ _ =>
    (registerMethods_leads henv.level c.methods _).bind fun _ _ => ?_
  -- the offset of the class was taken before its members were declared
  have hgives : ∀ env', env'.At 0 (k + 1) →
      (DeclPlace.dec k).Gives env' ⟨env.level, .cls (env.members c).layout, offset⟩ :=
    fun _ h => ⟨henv.level.trans h.level.symm, hoffset⟩
  refine (Leads.noteDeclare c.id hgives).bind fun _ _ =>
    (Leads.change fun env' henv' => henv.addClass henv' c henv.level).bind fun _ _ => ?_
  -- the methods stand at level 1, but the next offset is still that of the program
  rw [henv.level]
  exact (Leads.enterMembers (henv.members c)).bind fun _ _ =>
    (traverseMethods_leads _ c.methods _ (by omega) hc).bind fun _ hms => Leads.leaveMembers.bind fun _ _ => .pure hms

theorem traverseClasses_leads : ∀ (cs : List Class) {k : Nat}, k + classBinders cs + 2 ≤ maxInt32 →
    (∀ c ∈ cs, ∀ m ∈ c.methods, ∀ x ∈ m.nodes, x.Outward) →
    Leads 0 k (traverseClasses k cs) (fun cs' => ∀ c ∈ cs', ∀ m ∈ c.methods, ∀ x ∈ m.nodes, x.Outward) 0
      (k + cs.length)
  | [], _, _, _ => .pure nofun
  | c :: cs, k, hk, hcs => by
    have hone : 1 ≤ c.binders := by rw [Class.binders]; omega
    rw [classBinders] at hk
    obtain ⟨hc, hcs⟩ := List.forall_mem_cons.1 hcs
    have htail : Leads 0 (k + 1) (traverseClasses (k + 1) cs) _ 0 (k + 1 + cs.length) :=
      traverseClasses_leads cs (by omega) hcs
    rw [List.length_cons, Nat.add_comm cs.length 1, ← Nat.add_assoc]
    exact (c.traverse_leads (by omega) hc).bind fun _ hc' => htail.bind fun _ hcs' =>
      .pure (List.forall_mem_cons.2 ⟨hc', hcs'⟩)

/-! ## Programs -/

theorem length_le_classBinders : ∀ cs : List Class, cs.length ≤ classBinders cs
  | [] => Nat.le_refl _
  | c :: cs => by
    have ih := length_le_classBinders cs
    rw [List.length_cons, classBinders, Class.binders]
    omega

namespace Program

variable {p : Program}

theorem traverse_leads (hb : p.binders + 2 ≤ maxInt32) (hp : ∀ x ∈ p.nodes, x.Outward) :
    Leads 0 0 p.traverse (fun p' => ∀ x ∈ p'.nodes, x.Outward) 0 (p.classes.length + p.decs.length) := by
  rw [binders] at hb
  have hclasses := length_le_classBinders p.classes
  have hcs := (forall_nodes.1 hp).1
  cases p with
  | letIn cs ds body =>
    have hds : Leads 0 cs.length (traverseLocals cs.length ds) _ 0 (cs.length + ds.length) :=
      traverseLocals_leads ds (by simp only [classes, decs] at hb hclasses; omega)
    have hall := traverseClasses_leads cs (k := 0) (by simp only [classes] at hb; omega) hcs
    rw [Nat.zero_add] at hall
    exact hall.bind fun _ hcs' => hds.bind fun _ hds' => body.traverse_leads.bind fun _ hbody =>
      .pure (forall_nodes.2 ⟨hcs', hds', hbody⟩)
  | expr body =>
    exact body.traverse_leads.bind fun _ hbody => .pure
      (forall_nodes.2 ⟨List.forall_mem_nil _, List.forall_mem_nil _, hbody⟩)

end Program

/-- The frame of an entry that lies no deeper than its use is as many links away as there are levels in between. -/
theorem length_frame {u : Use} {e : Entry} (h : e.level ≤ u.level) :
    ((Line.frame u e).length : Int) = 1 + ((u.level : Int) - e.level) := by
  rw [Line.frame, List.length_cons, List.length_replicate]
  omega

/-- **The scopes stay stacked.**  The traversal that resolves the names of a program looks names up and declares them
only where one scope more is open than the level says and the `i`-th scope holds entries of level `i`.  The declaration
after `k` others of its routine or of the program takes offset -2 - k, the `i`-th parameter offset `i`, and each part
that is visited leaves the level, the number of scopes and the offsets of others as they were.  No entry of a use lies
deeper than the use, so that the difference of the levels, which the frame is found by, is never cut off at zero. -/
theorem scopes_stay_stacked {source : List Char} {p : Program} (hp : parse source = .ok p)
    (hb : Text.byteLength source ≤ maxInt32) :
    (p.traversal.1 = p.resolve ∧ p.traversal.2.env = p.mainEnv ∧ p.traversal.2.errors = p.nameErrors) ∧
      (∀ env x, .lookup env x ∈ p.traversal.2.events → env.Stacked) ∧
      (∀ env place x e, .declare env place x e ∈ p.traversal.2.events → env.Stacked ∧ place.Gives env e) ∧
      (∀ part before after, .visit part before after ∈ p.traversal.2.events → part.Restores before after) ∧
      ∀ x ∈ p.resolve.nodes, ∀ u e, x.use? = some u → u.entry = some e →
        e.level ≤ u.level ∧ ((Line.frame u e).length : Int) = 1 + ((u.level : Int) - e.level) := by
  have hbinders := three_mul_binders_le hp
  have hfresh : ∀ x ∈ p.nodes, x.Outward := by
    intro x hx u e hu he
    have hnone := (parse_sound hp).1 x hx
    cases x <;> cases hu <;> simp [Expr.entries, he] at hnone
  have hstart : Traversal.At 0 0 ⟨p.initialEnv, [], []⟩ := ⟨.initial _, nofun⟩
  obtain ⟨hnodes, -, hevents⟩ := p.traverse_leads (by unfold maxInt32 at hb ⊢; omega) hfresh _ hstart
  have htree : (p.traverse.run ⟨p.initialEnv, [], []⟩).1 = p.resolve := p.traversal_eq.1
  rw [htree] at hnodes
  refine ⟨p.traversal_eq, fun env x h => hevents _ h, fun env place x e h => hevents _ h,
    fun part before after h => hevents _ h, fun x hx u e hu he => ?_⟩
  have hle := hnodes x hx u e hu he
  exact ⟨hle, length_frame hle⟩

/-- Where a name is declared, how many scopes are open there, and the level and the offset of its entry. -/
def Event.declared? : Event → Option (DeclPlace × Nat × Nat × Int)
  | declare env place _ e => some (place, env.scopes.length, e.level, e.offset)
  | _ => none

/-- A source with a method that is refused for a field of its name, a local that is declared twice, a class that uses
inherited members, a function in a function, and a name that is not declared. -/
def stackedSource : List Char :=
  "let class A (x: int) { fun f: int (y: int) let var z: int := x; var z: int := y; in z; fun x: int () 1; } ".toList ++
    ("class B extends A () { fun g: int () f(2); } var a: A := new B(); ".toList ++
    "fun h: int (u: int, v: int) let fun k: int () u; in k() + w; in a.f(h(1, 2));".toList)

/-- Thirteen names are declared, in one scope to three, and both classes take an offset.  A use at level 2 has an entry
at level 1, one link away. -/
theorem stackedSource_stacked : ∃ p, parse stackedSource = .ok p ∧ p.nameErrors.length = 3 ∧
    p.traversal.2.events.filterMap Event.declared? = [(.member, 1, 1, -1), (.member, 1, 1, 0), (.dec 0, 1, 0, -2),
      (.param 1, 3, 2, 1), (.dec 0, 3, 2, -2), (.dec 1, 3, 2, -3), (.member, 1, 1, 1), (.dec 1, 1, 0, -3),
      (.dec 2, 1, 0, -4), (.dec 3, 1, 0, -5), (.param 1, 2, 1, 1), (.param 2, 2, 1, 2), (.dec 0, 2, 1, -2)] ∧
    (∀ env x, .lookup env x ∈ p.traversal.2.events → env.Stacked) ∧
    (∀ env place x e, .declare env place x e ∈ p.traversal.2.events → env.Stacked ∧ place.Gives env e) ∧
    (∀ part before after, .visit part before after ∈ p.traversal.2.events → part.Restores before after) ∧
    ∃ x ∈ p.resolve.nodes, ∃ u e, x.use? = some u ∧ u.entry = some e ∧ u.level = 2 ∧ e.level = 1 ∧
      (Line.frame u e).length = 2 := by
  have hparsed : ((parse stackedSource).toOption.any (fun p => decide (p.nameErrors.length = 3 ∧
      p.traversal.2.events.filterMap Event.declared? = [(.member, 1, 1, -1), (.member, 1, 1, 0), (.dec 0, 1, 0, -2),
        (.param 1, 3, 2, 1), (.dec 0, 3, 2, -2), (.dec 1, 3, 2, -3), (.member, 1, 1, 1), (.dec 1, 1, 0, -3),
        (.dec 2, 1, 0, -4), (.dec 3, 1, 0, -5), (.param 1, 2, 1, 1), (.param 2, 2, 1, 2), (.dec 0, 2, 1, -2)]) &&
      (p.resolve.nodes.any fun x => x.use?.any fun u => u.entry.any fun e => decide (u.level = 2 ∧ e.level = 1))) &&
      decide (Text.byteLength stackedSource ≤ maxInt32)) = true := by
    decide +kernel
  obtain ⟨hparsed, hbytes⟩ := Bool.and_eq_true_iff.1 hparsed
  obtain ⟨p, hp, hm⟩ := exists_of_any hparsed
  simp only [Bool.and_eq_true, decide_eq_true_eq, List.any_eq_true, Option.any_eq_true] at hm
  obtain ⟨⟨herrors, hdeclared⟩, x, hx, u, hu, e, he, hlevel, hentry⟩ := hm
  obtain ⟨-, hlookups, hdeclares, hvisits, huses⟩ := scopes_stay_stacked hp (of_decide_eq_true hbytes)
  have hlength := (huses x hx u e hu he).2
  exact ⟨p, hp, herrors, hdeclared, hlookups, hdeclares, hvisits, x, hx, u, e, hu, he, hlevel, hentry, by omega⟩

end FoolLang
