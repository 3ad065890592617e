import FoolLang.Proofs.Operands
import Mathlib.Data.List.SplitBy
/-!
# Blocks — the code of a program, routine by routine

The code of a program falls into blocks, cut before the label of each routine: the main one, up to `halt`, and one for
each routine, up to its last `js`.  A routine inside another one has a block of its own, which comes before that of the
outer one, so that no block is interrupted (`Program.blocks_code`).  In a block each branch goes to a label that is
defined further down in it (`Code.Inner`).
-/
namespace FoolLang

/-- Whether a routine starts at a line. -/
def Line.isEntry : Line → Bool
  | .define (.routine _) => true
  | _ => false

/-- The routine that starts at a line, by its number. -/
def Line.routine? : Line → Option Nat
  | .define (.routine f) => some f
  | _ => none

/-- A code cut before the start of each routine. -/
def Code.blocks (code : Code) : List Code := code.splitBy fun _ line => !line.isEntry

theorem Code.flatten_blocks (code : Code) : code.blocks.flatten = code := List.flatten_splitBy _ code

/-- Whether a line may stand inside a block: neither does a routine start nor the program end at it, it pushes no label
but that of a routine and branches to none. -/
def Line.isInner : Line → Bool
  | .define (.routine _) | .pushLabel (.branch _) | .branch _ (.routine _) | .op .halt => false
  | _ => true

/-- Whether a line may stand inside a block and is no branch. -/
def Line.isFlat (line : Line) : Bool :=
  line.isInner && match line with
    | .branch _ _ => false
    | _ => true

/-! ## Branches that go down -/

/-- A label is defined after each branch to it. -/
def Code.Forward (code : Code) : Prop := ∀ b l rest, .branch b l :: rest <:+ code → .define l ∈ rest

/-- A piece of a block: its branches go down in it. -/
structure Code.Inner (code : Code) : Prop where
  lines : ∀ line ∈ code, line.isInner = true
  forward : code.Forward

namespace Code

variable {a c : Code} {line : Line}

theorem Forward.nil : Forward [] := fun _ _ _ h => nomatch List.suffix_nil.1 h

theorem Forward.cons (hline : ∀ b l, line = .branch b l → .define l ∈ c) (h : c.Forward) : Forward (line :: c) := by
  intro b l rest hrest
  rcases List.suffix_cons_iff.1 hrest with he | hrest
  · obtain ⟨rfl, rfl⟩ := List.cons.inj he
    exact hline b l rfl
  · exact h b l rest hrest

theorem Forward.append : ∀ {a : Code}, a.Forward → c.Forward → Forward (a ++ c)
  | [], _, hc => hc
  | line :: a, ha, hc => by
    have htail : Forward a := fun b l rest h => ha b l rest (h.trans (List.suffix_cons line a))
    refine (htail.append hc).cons fun b l he => ?_
    exact List.mem_append_left _ (ha b l a (he ▸ List.suffix_refl _))

namespace Inner

theorem nil : Inner [] := ⟨nofun, .nil⟩

theorem append (ha : a.Inner) (hc : c.Inner) : Inner (a ++ c) :=
  ⟨List.forall_mem_append.2 ⟨ha.lines, hc.lines⟩, ha.forward.append hc.forward⟩

theorem cons (hline : line.isFlat = true) (h : c.Inner) : Inner (line :: c) := by
  obtain ⟨hinner, hbranch⟩ := Bool.and_eq_true_iff.1 hline
  refine ⟨List.forall_mem_cons.2 ⟨hinner, h.lines⟩, h.forward.cons ?_⟩
  rintro b l rfl
  cases hbranch

/-- A branch may be put before the code that it goes to. -/
theorem branch (b : Branch) {n : Nat} (hn : .define (.branch n) ∈ c) (h : c.Inner) :
    Inner (.branch b (.branch n) :: c) := by
  refine ⟨List.forall_mem_cons.2 ⟨rfl, h.lines⟩, h.forward.cons ?_⟩
  rintro _ _ ⟨⟩
  exact hn

theorem of_flat : ∀ {c : Code}, c.all Line.isFlat = true → Inner c
  | [], _ => nil
  | _ :: _, h =>
    have ⟨hline, hc⟩ := Bool.and_eq_true_iff.1 (List.all_cons.symm.trans h)
    cons hline (of_flat hc)

end Inner
end Code

theorem Code.Inner.not_isEntry {c : Code} (h : c.Inner) : ∀ line ∈ c, line.isEntry = false := by
  intro line hline
  cases line with
  | define l =>
    cases l with
    | branch n => rfl
    | routine n => cases h.lines _ hline
  | _ => rfl

theorem Code.Inner.routine?_eq_none {c : Code} (h : c.Inner) : ∀ line ∈ c, line.routine? = none := by
  intro line hline
  have hentry := h.not_isEntry line hline
  revert hentry
  unfold Line.isEntry Line.routine?
  split <;> simp

theorem Code.findSome?_routine? {c : Code} (h : ∀ line ∈ c, line.routine? = none) :
    c.reverse.findSome? Line.routine? = none :=
  List.findSome?_eq_none_iff.2 fun line hline => h line (List.mem_reverse.1 hline)

/-! ## Expressions -/

theorem flat_load (u : Use) : u.load.all Line.isFlat = true := by
  unfold Use.load
  split <;> simp [Line.frame, Line.loadAt, Line.isFlat, Line.isInner]

theorem flat_invoke (u : Use) : u.invoke.all Line.isFlat = true := by
  unfold Use.invoke
  split
  · rfl
  · split <;> simp [Line.frame, Line.loadAt, Line.shareLink, Line.isFlat, Line.isInner]

theorem flat_dispatch (u : Use) (m : Option Entry) : (u.dispatch m).all Line.isFlat = true := by
  unfold Use.dispatch
  split <;> simp [Line.frame, Line.loadAt, Line.shareLink, Line.isFlat, Line.isInner]

theorem flat_instantiate (memory n : Nat) (cls : Option Entry) :
    (instantiate memory n cls).all Line.isFlat = true := by
  unfold instantiate
  split <;> simp [Line.allocate, Line.bumpHeap, Line.loadAt, Line.isFlat, Line.isInner]

theorem inner_truthOf (b : Branch) (n : Nat) : (Line.truthOf b n).Inner :=
  .branch b (by simp) (.cons rfl (.branch .always (by simp) (.of_flat rfl)))

section

variable (memory : Nat)

mutual

/-- **The branches of an expression go down in its code.** -/
theorem Expr.inner_code : ∀ (e : Expr) (k : Nat), (e.code memory k).Inner
  | .int _ _, _ | .bool _ _, _ | .null _, _ => .of_flat rfl
  | .binary _ op a b, k => by
    cases op with
    | plus | minus | times | div => exact ((a.inner_code _).append (b.inner_code _)).append (.of_flat rfl)
    | equal | lessEqual => exact ((a.inner_code _).append (b.inner_code _)).append (inner_truthOf _ k)
    | greaterEqual => exact ((b.inner_code _).append (a.inner_code _)).append (inner_truthOf _ k)
    | and | or =>
      -- taken from the front, so that a branch is met before the rest of the code that defines its label
      simp only [Expr.code, List.append_assoc, List.cons_append, List.nil_append]
      exact (a.inner_code _).append <| .cons rfl <| .branch .ifEqual (by simp) <| (b.inner_code _).append <|
        .cons rfl <| .branch .ifEqual (by simp) <| .cons rfl <| .branch .always (by simp) <| .of_flat rfl
  | .not _ a, k => (a.inner_code _).append <| .cons rfl <| .branch .ifEqual (by simp) <| .cons rfl <|
    .branch .always (by simp) <| .of_flat rfl
  | .cond _ c t e, k => by
    simp only [Expr.code, List.append_assoc, List.cons_append, List.nil_append]
    exact (c.inner_code _).append <| .cons rfl <| .branch .ifEqual (by simp) <| (e.inner_code _).append <|
      .branch .always (by simp) <| .cons rfl <| (t.inner_code _).append <| .of_flat rfl
  | .print _ a, k => (a.inner_code k).append (.of_flat rfl)
  | .id _ u, _ => .of_flat (flat_load u)
  | .call _ u args, k => .append (.cons rfl (inner_codeBack args k)) (.of_flat (flat_invoke u))
  | .send _ u _ m args, k => .append (.cons rfl (inner_codeBack args k)) (.of_flat (flat_dispatch u m))
  | .new _ _ e args, k => (inner_codeAll args k).append (.of_flat (flat_instantiate memory args.length e))

theorem inner_codeAll : ∀ (es : List Expr) (k : Nat), (codeAll memory k es).Inner
  | [], _ => .nil
  | e :: es, k => (e.inner_code k).append (inner_codeAll es _)

theorem inner_codeBack : ∀ (es : List Expr) (k : Nat), (codeBack memory k es).Inner
  | [], _ => .nil
  | e :: es, k => (inner_codeBack es k).append (e.inner_code _)

end

/-! ## Declarations -/

theorem inner_localCode : ∀ (ds : List Dec) (k f : Nat), (localCode memory k f ds).Inner
  | [], _, _ => .nil
  | .var _ _ _ v :: ds, k, _ => (v.inner_code memory k).append (inner_localCode ds _ _)
  | .func .. :: ds, _, _ => .cons rfl (inner_localCode ds _ _)

theorem inner_tableCode {table : List Label} (h : ∀ l ∈ table, ∃ i, l = .routine i) :
    (Class.tableCode table).Inner := by
  refine .of_flat (List.all_eq_true.2 (List.forall_mem_cons.2 ⟨rfl, fun line hline => ?_⟩))
  obtain ⟨l, hl, hline⟩ := List.mem_flatMap.1 hline
  obtain ⟨i, rfl⟩ := h l hl
  have hflat : (Line.pushLabel (.routine i) :: Line.allocate).all Line.isFlat = true := rfl
  exact List.all_eq_true.1 hflat _ hline

theorem inner_classCode : ∀ (cs : List Class) {tables : Tables} {f : Nat}, tables.Sound f →
    (classCode tables f cs).Inner
  | [], _, _, _ => .nil
  | c :: cs, _, _, h =>
    .append (inner_tableCode fun l hl => (c.dispatchTable_sound h l hl).imp fun _ hi => hi.1)
      (inner_classCode cs (h.cons c))

/-- The code of a program up to `halt`. -/
def Program.mainCode : Program → Code
  | .letIn cs ds body =>
    .push 0 :: classCode [] 0 cs ++ localCode memory (classLabels cs) (classRoutines cs) ds
      ++ body.code memory (classLabels cs + localLabels ds)
  | .expr body => body.code memory 0

theorem Program.inner_mainCode : ∀ p : Program, (p.mainCode memory).Inner
  | .letIn cs ds body =>
    .append (.append (.cons rfl (inner_classCode cs (.nil 0))) (inner_localCode memory ds _ _))
      (body.inner_code memory _)
  | .expr body => body.inner_code memory 0

end

/-! ## Routines -/

/-- A routine that code is emitted for, with its number and that of the first branch label in it. -/
structure Emitted where
  number : Nat
  branches : Nat
  params : Nat
  locals : List Dec
  body : Expr

namespace Emitted

variable (memory : Nat) (r : Emitted)

/-- What a routine does to its frame and its locals, between its label and the jump back. -/
def innerCode : Code :=
  [.op .cfp, .op .lra] ++ localCode memory r.branches (r.number + 1) r.locals
    ++ r.body.code memory (r.branches + localLabels r.locals) ++ [.op .stm] ++ List.replicate r.locals.length (.op .pop)
    ++ [.op .sra, .op .pop] ++ List.replicate r.params (.op .pop) ++ [.op .sfp, .op .ltm, .op .lra]

/-- The block of a routine. -/
def code : Code :=
  routineCode r.number r.params r.locals.length (localCode memory r.branches (r.number + 1) r.locals)
    (r.body.code memory (r.branches + localLabels r.locals))

theorem code_eq : r.code memory = .define (.routine r.number) :: (r.innerCode memory ++ [.op .js]) := by
  simp [code, innerCode, routineCode]

theorem inner_innerCode : (r.innerCode memory).Inner := by
  have hpops : ∀ n, Code.Inner (List.replicate n (.op .pop)) := fun n => by
    exact .of_flat (by simp [Line.isFlat, Line.isInner])
  exact (((((((Code.Inner.of_flat rfl).append (inner_localCode memory _ _ _)).append
    (r.body.inner_code memory _)).append (.of_flat rfl)).append (hpops _)).append (.of_flat rfl)).append
    (hpops _)).append (.of_flat rfl)

end Emitted

mutual

/-- The routines of a declaration in the order of their code: those inside a function before the function itself. -/
def Dec.emitted (k f : Nat) : Dec → List Emitted
  | .var _ _ _ _ => []
  | .func _ _ _ params locals body => localEmitted k (f + 1) locals ++ [⟨f, k, params.length, locals, body⟩]

def localEmitted (k f : Nat) : List Dec → List Emitted
  | [] => []
  | d :: ds => d.emitted k f ++ localEmitted (k + d.labels) (f + d.routines) ds

end

def Method.emitted (k f : Nat) (m : Method) : List Emitted :=
  localEmitted k (f + 1) m.locals ++ [⟨f, k, m.params.length, m.locals, m.body⟩]

def methodEmitted (k f : Nat) : List Method → List Emitted
  | [] => []
  | m :: ms => m.emitted k f ++ methodEmitted (k + m.labels) (f + m.routines) ms

def classEmitted (k f : Nat) : List Class → List Emitted
  | [] => []
  | c :: cs => methodEmitted k f c.methods ++ classEmitted (k + c.labels) (f + c.routines) cs

/-- The routines of a program, in the order of their code. -/
def Program.emitted : Program → List Emitted
  | .letIn cs ds _ => classEmitted 0 0 cs ++ localEmitted (classLabels cs) (classRoutines cs) ds
  | .expr _ => []

section

variable (memory : Nat)

mutual

theorem Dec.flatMap_emitted : ∀ (d : Dec) (k f : Nat),
    (d.emitted k f).flatMap (Emitted.code memory) = d.routineCode memory k f
  | .var _ _ _ _, _, _ => rfl
  | .func _ _ _ params locals body, k, f => by
    rw [Dec.emitted, Dec.routineCode, List.flatMap_append, flatMap_localEmitted locals, List.flatMap_singleton]
    rfl

theorem flatMap_localEmitted : ∀ (ds : List Dec) (k f : Nat),
    (localEmitted k f ds).flatMap (Emitted.code memory) = localRoutineCode memory k f ds
  | [], _, _ => rfl
  | d :: ds, k, f => by
    rw [localEmitted, localRoutineCode, List.flatMap_append, d.flatMap_emitted, flatMap_localEmitted ds]

end

theorem Method.flatMap_emitted (m : Method) (k f : Nat) :
    (m.emitted k f).flatMap (Emitted.code memory) = m.routineCode memory k f := by
  rw [Method.emitted, Method.routineCode, List.flatMap_append, flatMap_localEmitted, List.flatMap_singleton]
  rfl

theorem flatMap_methodEmitted : ∀ (ms : List Method) (k f : Nat),
    (methodEmitted k f ms).flatMap (Emitted.code memory) = methodRoutineCode memory k f ms
  | [], _, _ => rfl
  | m :: ms, k, f => by
    rw [methodEmitted, methodRoutineCode, List.flatMap_append, m.flatMap_emitted, flatMap_methodEmitted ms]

theorem flatMap_classEmitted : ∀ (cs : List Class) (k f : Nat),
    (classEmitted k f cs).flatMap (Emitted.code memory) = classRoutineCode memory k f cs
  | [], _, _ => rfl
  | c :: cs, k, f => by
    rw [classEmitted, classRoutineCode, List.flatMap_append, flatMap_methodEmitted, flatMap_classEmitted cs]

end

/-! ## Numbers -/

mutual

theorem Dec.emitted_numbers : ∀ (d : Dec) (k f : Nat),
    ((d.emitted k f).map Emitted.number).Perm (List.range' f d.routines)
  | .var _ _ _ _, _, _ => .refl _
  | .func _ _ _ params locals body, k, f => by
    rw [Dec.emitted, Dec.routines, List.map_append, List.range'_succ]
    exact ((localEmitted_numbers locals k (f + 1)).append_right _).trans (List.perm_append_singleton f _)

theorem localEmitted_numbers : ∀ (ds : List Dec) (k f : Nat),
    ((localEmitted k f ds).map Emitted.number).Perm (List.range' f (localRoutines ds))
  | [], _, _ => .refl _
  | d :: ds, k, f => by
    rw [localEmitted, localRoutines, List.map_append, ← List.range'_append_1]
    exact (d.emitted_numbers k f).append (localEmitted_numbers ds _ _)

end

theorem Method.emitted_numbers (m : Method) (k f : Nat) :
    ((m.emitted k f).map Emitted.number).Perm (List.range' f m.routines) :=
  Dec.emitted_numbers (.func m.line m.id m.ret m.params m.locals m.body) k f

theorem methodEmitted_numbers : ∀ (ms : List Method) (k f : Nat),
    ((methodEmitted k f ms).map Emitted.number).Perm (List.range' f (methodRoutines ms))
  | [], _, _ => .refl _
  | m :: ms, k, f => by
    rw [methodEmitted, methodRoutines, List.map_append, ← List.range'_append_1]
    exact (m.emitted_numbers k f).append (methodEmitted_numbers ms _ _)

theorem classEmitted_numbers : ∀ (cs : List Class) (k f : Nat),
    ((classEmitted k f cs).map Emitted.number).Perm (List.range' f (classRoutines cs))
  | [], _, _ => .refl _
  | c :: cs, k, f => by
    rw [classEmitted, classRoutines, List.map_append, ← List.range'_append_1]
    exact (methodEmitted_numbers c.methods k f).append (classEmitted_numbers cs _ _)

/-- Elements that are related to all but the first one are a chain. -/
theorem isChain_of_related {α : Type} {R : α → α → Prop} : ∀ {l : List α} {a : α}, (∀ x ∈ a :: l, ∀ y ∈ l, R x y) →
    (a :: l).IsChain R
  | [], a, _ => .singleton a
  | b :: _, a, h => .cons_cons (h a List.mem_cons_self b List.mem_cons_self) <|
    isChain_of_related fun x hx y hy => h x (List.mem_cons_of_mem a hx) y (List.mem_cons_of_mem b hy)

namespace Program

/-- **Code is emitted for each routine of a program once.** -/
theorem emitted_numbers : ∀ p : Program, (p.emitted.map Emitted.number).Perm (List.range p.routines)
  | .letIn cs ds _ => by
    rw [emitted, routines, List.map_append, List.range_eq_range', ← List.range'_append_1, Nat.zero_add]
    exact (classEmitted_numbers cs 0 0).append (localEmitted_numbers ds _ _)
  | .expr _ => .refl _

variable (p : Program) (memory : Nat)

theorem code_eq_flatten : p.code memory =
    ((p.mainCode memory ++ [.op .halt]) :: p.emitted.map (Emitted.code memory)).flatten := by
  cases p with
  | letIn cs ds body =>
    rw [List.flatten_cons, ← List.flatMap_def, emitted, List.flatMap_append, flatMap_classEmitted, flatMap_localEmitted]
    simp only [code, mainCode, List.append_assoc]
  | expr body => simp [code, mainCode, emitted]

/-- **The blocks of a program are that of its main expression and those of its routines**, one after the other. -/
theorem blocks_code : (p.code memory).blocks =
    (p.mainCode memory ++ [.op .halt]) :: p.emitted.map (Emitted.code memory) := by
  have hmain : ∀ line ∈ p.mainCode memory ++ [.op .halt], line.isEntry = false :=
    List.forall_mem_append.2 ⟨(p.inner_mainCode memory).not_isEntry, List.forall_mem_singleton.2 rfl⟩
  have hroutine : ∀ r : Emitted, ∀ line ∈ r.innerCode memory ++ [.op .js], line.isEntry = false := fun r =>
    List.forall_mem_append.2 ⟨(r.inner_innerCode memory).not_isEntry, List.forall_mem_singleton.2 rfl⟩
  have hnonempty : ∀ block ∈ (p.mainCode memory ++ [.op .halt]) :: p.emitted.map (Emitted.code memory),
      block ≠ [] := by
    refine List.forall_mem_cons.2 ⟨by simp, List.forall_mem_map.2 fun r _ => ?_⟩
    rw [r.code_eq]
    exact List.cons_ne_nil _ _
  have hchain : ∀ (first : Line) {c : Code}, (∀ line ∈ c, line.isEntry = false) →
      (first :: c).IsChain fun _ line => (!line.isEntry) = true := fun _ _ h =>
    isChain_of_related fun _ _ line hline => by rw [h line hline]; rfl
  rw [Code.blocks, List.splitBy_eq_iff]
  refine ⟨p.code_eq_flatten memory, fun h => hnonempty _ h rfl, ?_,
    isChain_of_related fun block hblock next hnext => ?_⟩
  · refine List.forall_mem_cons.2 ⟨?_, List.forall_mem_map.2 fun r _ => ?_⟩
    · exact (hchain (.op .halt) hmain).tail
    · rw [r.code_eq]
      exact hchain _ (hroutine r)
  · obtain ⟨r, -, rfl⟩ := List.mem_map.1 hnext
    refine ⟨hnonempty block hblock, hnonempty _ (List.mem_cons_of_mem _ hnext), ?_⟩
    simp only [r.code_eq, List.head_cons]
    rfl

end Program
end FoolLang
