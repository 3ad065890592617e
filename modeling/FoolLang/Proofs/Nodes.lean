import FoolLang.Code.Program
import FoolLang.Proofs.Words
/-!
# Nodes — the expressions in a program, and the entries they need

There is code for a program exactly when every node of it has the entries that its kind needs and every superclass is
a class listed earlier (`Program.exists_generate_iff`).
-/
namespace FoolLang

open Assembly

mutual

/-- An expression and the expressions inside it. -/
def Expr.nodes : Expr → List Expr
  | .int l n => [.int l n]
  | .bool l b => [.bool l b]
  | .null l => [.null l]
  | .binary l op a b => .binary l op a b :: (a.nodes ++ b.nodes)
  | .not l a => .not l a :: a.nodes
  | .cond l c t e => .cond l c t e :: (c.nodes ++ t.nodes ++ e.nodes)
  | .print l a => .print l a :: a.nodes
  | .id l u => [.id l u]
  | .call l u args => .call l u args :: argNodes args
  | .send l u m e args => .send l u m e args :: argNodes args
  | .new l c e args => .new l c e args :: argNodes args

def argNodes : List Expr → List Expr
  | [] => []
  | e :: es => e.nodes ++ argNodes es

end

mutual

def Dec.nodes : Dec → List Expr
  | .var _ _ _ v => v.nodes
  | .func _ _ _ _ locals body => localNodes locals ++ body.nodes

def localNodes : List Dec → List Expr
  | [] => []
  | d :: ds => d.nodes ++ localNodes ds

end

def Method.nodes (m : Method) : List Expr := localNodes m.locals ++ m.body.nodes

def Class.nodes (c : Class) : List Expr := c.methods.flatMap Method.nodes

def Program.nodes (p : Program) : List Expr := p.classes.flatMap Class.nodes ++ localNodes p.decs ++ p.body.nodes

/-- The entries of a node, those of its parts left out. -/
def Expr.entries : Expr → List Entry
  | .id _ u | .call _ u _ => u.entry.toList
  | .send _ u _ m _ => u.entry.toList ++ m.toList
  | .new _ _ e _ => e.toList
  | _ => []

/-- Whether a node has the entries that a node of its kind needs: a use its own, an instantiation that of the class,
and a method call those of the receiver and of the method. -/
def Expr.Complete : Expr → Prop
  | .id _ u | .call _ u _ => u.entry.isSome
  | .send _ u _ m _ => u.entry.isSome ∧ m.isSome
  | .new _ _ e _ => e.isSome
  | _ => True

/-- The arguments of a call. -/
def Expr.arguments? : Expr → Option (List Expr)
  | .call _ _ args | .send _ _ _ _ args => some args
  | _ => none

/-- Whether the offsets in the entries of a node fit 32 bits. -/
def Expr.OffsetsFit (n : Expr) : Prop := ∀ e ∈ n.entries, FitsWord e.offset

theorem Expr.mem_nodes (e : Expr) : e ∈ e.nodes := by cases e <;> simp [nodes]

section

variable {P : Expr → Prop} {l : Nat}

theorem Expr.forall_nodes_binary {op : BinOp} {a b : Expr} : (∀ n ∈ (Expr.binary l op a b).nodes, P n) ↔
    P (.binary l op a b) ∧ (∀ n ∈ a.nodes, P n) ∧ ∀ n ∈ b.nodes, P n := by
  simp [Expr.nodes, or_imp, forall_and]

theorem Expr.forall_nodes_not {a : Expr} :
    (∀ n ∈ (Expr.not l a).nodes, P n) ↔ P (.not l a) ∧ ∀ n ∈ a.nodes, P n := by simp [Expr.nodes]

theorem Expr.forall_nodes_cond {c t e : Expr} : (∀ n ∈ (Expr.cond l c t e).nodes, P n) ↔
    P (.cond l c t e) ∧ (∀ n ∈ c.nodes, P n) ∧ (∀ n ∈ t.nodes, P n) ∧ ∀ n ∈ e.nodes, P n := by
  simp [Expr.nodes, or_imp, forall_and]

theorem Expr.forall_nodes_print {a : Expr} :
    (∀ n ∈ (Expr.print l a).nodes, P n) ↔ P (.print l a) ∧ ∀ n ∈ a.nodes, P n := by simp [Expr.nodes]

theorem Expr.forall_nodes_call {u : Use} {args : List Expr} :
    (∀ n ∈ (Expr.call l u args).nodes, P n) ↔ P (.call l u args) ∧ ∀ n ∈ argNodes args, P n := by simp [Expr.nodes]

theorem Expr.forall_nodes_send {u : Use} {m : Ident} {e : Option Entry} {args : List Expr} :
    (∀ n ∈ (Expr.send l u m e args).nodes, P n) ↔ P (.send l u m e args) ∧ ∀ n ∈ argNodes args, P n := by
  simp [Expr.nodes]

theorem Expr.forall_nodes_new {c : Ident} {e : Option Entry} {args : List Expr} :
    (∀ n ∈ (Expr.new l c e args).nodes, P n) ↔ P (.new l c e args) ∧ ∀ n ∈ argNodes args, P n := by simp [Expr.nodes]

theorem Expr.forall_argNodes {call : Expr} {args : List Expr} (ha : call.arguments? = some args)
    (h : ∀ n ∈ call.nodes, P n) : ∀ n ∈ argNodes args, P n := by
  cases call <;> cases ha <;> exact fun n hn => h n (List.mem_cons_of_mem _ hn)

theorem forall_argNodes_cons {e : Expr} {es : List Expr} :
    (∀ n ∈ argNodes (e :: es), P n) ↔ (∀ n ∈ e.nodes, P n) ∧ ∀ n ∈ argNodes es, P n := by
  simp [argNodes, or_imp, forall_and]

theorem forall_localNodes_cons {d : Dec} {ds : List Dec} :
    (∀ n ∈ localNodes (d :: ds), P n) ↔ (∀ n ∈ d.nodes, P n) ∧ ∀ n ∈ localNodes ds, P n := by
  simp [localNodes, or_imp, forall_and]

theorem Dec.forall_nodes_func {x : Ident} {ret : Ty} {ps : List Param} {ls : List Dec} {body : Expr} :
    (∀ n ∈ (Dec.func l x ret ps ls body).nodes, P n) ↔ (∀ n ∈ localNodes ls, P n) ∧ ∀ n ∈ body.nodes, P n := by
  simp [Dec.nodes, or_imp, forall_and]

theorem Method.forall_nodes {m : Method} :
    (∀ n ∈ m.nodes, P n) ↔ (∀ n ∈ localNodes m.locals, P n) ∧ ∀ n ∈ m.body.nodes, P n := by
  simp [Method.nodes, or_imp, forall_and]

theorem Program.forall_nodes {p : Program} : (∀ n ∈ p.nodes, P n) ↔
    (∀ c ∈ p.classes, ∀ m ∈ c.methods, ∀ n ∈ m.nodes, P n) ∧ (∀ n ∈ localNodes p.decs, P n) ∧
      ∀ n ∈ p.body.nodes, P n := by
  simp only [nodes, Class.nodes, List.mem_append, List.mem_flatMap]
  constructor
  · intro h
    exact ⟨fun c hc m hm n hn => h n (.inl (.inl ⟨c, hc, m, hm, hn⟩)), fun n hn => h n (.inl (.inr hn)),
      fun n hn => h n (.inr hn)⟩
  · rintro ⟨hc, hd, hb⟩ n ((⟨c, hcm, m, hm, hn⟩ | hn) | hn)
    · exact hc c hcm m hm n hn
    · exact hd n hn
    · exact hb n hn

end

theorem needEntry_eq_nil {entry : Option Entry} {id : Ident} {line : Nat} :
    needEntry entry id line = [] ↔ entry.isSome := by
  unfold needEntry
  split <;> simp_all

mutual

/-- **No use lacks its entry exactly when all nodes are complete.** -/
theorem Expr.unresolved_eq_nil : ∀ e : Expr, e.unresolved = [] ↔ ∀ n ∈ e.nodes, n.Complete
  | .int _ _ | .bool _ _ | .null _ => by simp [Expr.unresolved, Expr.nodes, Expr.Complete]
  | .binary l op a b => by
    have h : (Expr.binary l op a b).unresolved = [] ↔ a.unresolved = [] ∧ b.unresolved = [] := by
      cases op <;> simp [Expr.unresolved, and_comm]
    simp [h, Expr.nodes, Expr.Complete, or_imp, forall_and, a.unresolved_eq_nil, b.unresolved_eq_nil]
  | .not _ a | .print _ a => by simp [Expr.unresolved, Expr.nodes, Expr.Complete, a.unresolved_eq_nil]
  | .cond _ c t e => by
    simp [Expr.unresolved, Expr.nodes, Expr.Complete, or_imp, forall_and, c.unresolved_eq_nil, t.unresolved_eq_nil,
      e.unresolved_eq_nil, and_comm]
  | .id _ u => by simp [Expr.unresolved, Expr.nodes, Expr.Complete, needEntry_eq_nil]
  | .call _ u args => by
    simp [Expr.unresolved, Expr.nodes, Expr.Complete, needEntry_eq_nil, unresolvedBack_eq_nil args]
  | .send _ u _ m args => by
    simp [Expr.unresolved, Expr.nodes, Expr.Complete, needEntry_eq_nil, unresolvedBack_eq_nil args, and_assoc]
  | .new _ c e args => by
    simp [Expr.unresolved, Expr.nodes, Expr.Complete, needEntry_eq_nil, unresolvedAll_eq_nil args]

theorem unresolvedAll_eq_nil : ∀ es : List Expr, unresolvedAll es = [] ↔ ∀ n ∈ argNodes es, n.Complete
  | [] => by simp [unresolvedAll, argNodes]
  | e :: es => by
    simp [unresolvedAll, argNodes, or_imp, forall_and, e.unresolved_eq_nil, unresolvedAll_eq_nil es]

theorem unresolvedBack_eq_nil : ∀ es : List Expr, unresolvedBack es = [] ↔ ∀ n ∈ argNodes es, n.Complete
  | [] => by simp [unresolvedBack, argNodes]
  | e :: es => by
    simp [unresolvedBack, argNodes, or_imp, forall_and, e.unresolved_eq_nil, unresolvedBack_eq_nil es, and_comm]

end

mutual

theorem Dec.unresolved_eq_nil : ∀ d : Dec, d.unresolved = [] ↔ ∀ n ∈ d.nodes, n.Complete
  | .var _ _ _ v => by simp [Dec.unresolved, Dec.nodes, v.unresolved_eq_nil]
  | .func _ _ _ _ ls body => by
    simp [Dec.unresolved, Dec.nodes, or_imp, forall_and, localUnresolved_eq_nil ls, body.unresolved_eq_nil]

theorem localUnresolved_eq_nil : ∀ ds : List Dec, localUnresolved ds = [] ↔ ∀ n ∈ localNodes ds, n.Complete
  | [] => by simp [localUnresolved, localNodes]
  | d :: ds => by
    simp [localUnresolved, localNodes, or_imp, forall_and, d.unresolved_eq_nil, localUnresolved_eq_nil ds]

end

theorem Method.unresolved_eq_nil (m : Method) : m.unresolved = [] ↔ ∀ n ∈ m.nodes, n.Complete := by
  simp [unresolved, nodes, or_imp, forall_and, localUnresolved_eq_nil, Expr.unresolved_eq_nil]

/-- Something is listed for each of these classes, and for no other name. -/
def Lists {β : Type} (l : List (Ident × β)) (cs : List Class) : Prop :=
  ∀ s, (l.lookup s).isSome ↔ ∃ d ∈ cs, d.id = s

theorem Lists.nil {β : Type} : Lists ([] : List (Ident × β)) [] := fun s => by simp

theorem Lists.cons {β : Type} {l : List (Ident × β)} {cs : List Class} (h : Lists l cs) (c : Class) (b : β) :
    Lists ((c.id, b) :: l) (cs ++ [c]) := by
  intro s
  rw [List.lookup_cons]
  by_cases hs : s = c.id
  · simp [hs]
  · have hb : (s == c.id) = false := by simpa using hs
    simp only [hb, h s, List.mem_append, List.mem_singleton]
    constructor
    · rintro ⟨d, hd, rfl⟩
      exact ⟨d, .inl hd, rfl⟩
    · rintro ⟨d, hd | rfl, rfl⟩
      · exact ⟨d, hd, rfl⟩
      · exact absurd rfl hs

theorem Class.unresolved_eq_nil {tables : Tables} {pre : List Class} (h : Lists tables pre) (c : Class) :
    c.unresolved tables = [] ↔ (∀ s ∈ c.super, ∃ d ∈ pre, d.id = s) ∧ ∀ n ∈ c.nodes, n.Complete := by
  have hm : c.methods.flatMap Method.unresolved = [] ↔ ∀ n ∈ c.nodes, n.Complete := by
    simp only [List.flatMap_eq_nil_iff, Method.unresolved_eq_nil, nodes, List.mem_flatMap]
    exact ⟨fun h n ⟨m, hm, hn⟩ => h m hm n hn, fun h m hm n hn => h n ⟨m, hm, hn⟩⟩
  rw [unresolved, List.append_eq_nil_iff, hm]
  refine and_congr_left fun _ => ?_
  cases hs : c.super with
  | none => simp
  | some s =>
    simp only [Option.mem_def, Option.some.injEq, forall_eq', ← h s]
    split <;> simp_all

/-- **The classes are in order exactly when each extends an earlier one and their nodes are complete.** -/
theorem classUnresolved_eq_nil : ∀ (cs : List Class) {tables : Tables} {before : List Class} (f : Nat),
    Lists tables before → (classUnresolved tables f cs = [] ↔
      (∀ pre c post, cs = pre ++ c :: post → ∀ s ∈ c.super, ∃ d ∈ before ++ pre, d.id = s) ∧
        ∀ n ∈ cs.flatMap Class.nodes, n.Complete)
  | [], _, _, _, _ => by simp [classUnresolved]
  | c :: cs, tables, before, f, h => by
    have ih := classUnresolved_eq_nil cs (f + c.routines) (h.cons c (c.dispatchTable tables f))
    rw [classUnresolved, List.append_eq_nil_iff, ih, c.unresolved_eq_nil h]
    constructor
    · rintro ⟨⟨hs, hc⟩, hpre, hcs⟩
      refine ⟨fun pre d post he s hd => ?_, fun n hn => ?_⟩
      · cases pre with
        | nil =>
          obtain ⟨rfl, -⟩ : c = d ∧ cs = post := by simpa using he
          simpa using hs s hd
        | cons b pre =>
          obtain ⟨rfl, hcs⟩ : c = b ∧ cs = pre ++ d :: post := by simpa using he
          simpa using hpre pre d post hcs s hd
      · rcases List.mem_append.1 hn with hn | hn
        · exact hc n hn
        · exact hcs n hn
    · rintro ⟨hpre, hall⟩
      refine ⟨⟨fun s hs => ?_, fun n hn => hall n (List.mem_append_left _ hn)⟩, fun pre d post he s hd => ?_,
        fun n hn => hall n (List.mem_append_right _ hn)⟩
      · simpa using hpre [] c cs rfl s hs
      · simpa using hpre (c :: pre) d post (by rw [he]; rfl) s hd

def Program.SupersFirst (p : Program) : Prop :=
  ∀ pre c post, p.classes = pre ++ c :: post → ∀ s ∈ c.super, ∃ d ∈ pre, d.id = s

theorem Program.unresolved_eq_nil (p : Program) :
    p.unresolved = [] ↔ (∀ n ∈ p.nodes, n.Complete) ∧ p.SupersFirst := by
  cases p with
  | expr body =>
    simp [unresolved, nodes, SupersFirst, classes, decs, Program.body, localNodes, body.unresolved_eq_nil]
  | letIn cs ds body =>
    have hnone : Lists ([] : Tables) [] := .nil
    have h := classUnresolved_eq_nil cs 0 hnone
    simp only [unresolved, List.append_eq_nil_iff, h, localUnresolved_eq_nil, body.unresolved_eq_nil, nodes,
      SupersFirst, classes, decs, Program.body, List.nil_append, List.mem_append, or_imp, forall_and]
    constructor
    · rintro ⟨⟨⟨hs, hc⟩, hd⟩, hb⟩
      exact ⟨⟨⟨hc, hd⟩, hb⟩, hs⟩
    · rintro ⟨⟨⟨hc, hd⟩, hb⟩, hs⟩
      exact ⟨⟨⟨hs, hc⟩, hd⟩, hb⟩

/-- **There is code for a program exactly when its nodes are complete and its superclasses come first.** -/
theorem Program.exists_generate_iff (p : Program) (memory : Nat) :
    (∃ code, p.generate memory = .ok code) ↔ (∀ n ∈ p.nodes, n.Complete) ∧ p.SupersFirst := by
  rw [← p.unresolved_eq_nil]
  unfold generate
  split
  · rename_i h
    simp [h]
  · rename_i h
    simp [h]

theorem Program.generate_eq_code {p : Program} {memory : Nat} {code : Code} (h : p.generate memory = .ok code) :
    code = p.code memory := by
  unfold generate at h
  split at h
  · cases h; rfl
  · cases h

/-! ## Tables of names -/

theorem lookup_cons_of_ne {α β : Type} [BEq α] [LawfulBEq α] {x y : α} (h : x ≠ y) (b : β) (l : List (α × β)) :
    ((y, b) :: l).lookup x = l.lookup x := by
  rw [List.lookup_cons, beq_eq_false_iff_ne.2 h]

end FoolLang
