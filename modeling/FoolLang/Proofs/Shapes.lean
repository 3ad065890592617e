import FoolLang.Code.Program
import FoolLang.Proofs.Linking
import FoolLang.Proofs.Nodes
/-!
# Shapes — what lines make of the stack

A line tells how many values it takes from the stack and how many it leaves there, a `js` apart: that takes what a call
has left there since it kept the frame pointer.  So the frame pointers that are kept are told from the other values.
The code of an expression leaves one value (`Expr.shape_code`).  The lines before a `js` tell how many arguments the
call has, and there is only one such number (`Code.CallsWith.unique`).
-/
namespace FoolLang

/-- How many values an operation takes from the stack. -/
def Op.takes : Op → Nat
  | .add | .sub | .mult | .div | .sw => 2
  | .pop | .lw | .js | .sra | .stm | .sfp | .shp => 1
  | .lra | .ltm | .lfp | .lhp | .cfp | .print | .halt => 0

/-- How many values an operation puts on the stack. -/
def Op.leaves : Op → Nat
  | .add | .sub | .mult | .div | .lw | .lra | .ltm | .lfp | .lhp => 1
  | .pop | .sw | .js | .sra | .stm | .sfp | .shp | .cfp | .print | .halt => 0

/-- What a line makes of a stack of which it is known which values are frame pointers, put there by an `lfp`. -/
def Line.shape (s : List Bool) : Line → List Bool
  | .define _ => s
  | .push _ | .pushLabel _ => false :: s
  -- a value for the lines that are skipped lies on the stack, and the lines that follow have to put it there again
  | .branch .always _ => s.drop 1
  | .branch _ _ => s.drop 2
  | .op .lfp => true :: s
  | .op .js => false :: (s.dropWhile (!·)).drop 1
  | .op o => List.replicate o.leaves false ++ s.drop o.takes

def Code.shape (code : Code) (s : List Bool) : List Bool := code.foldl Line.shape s

namespace Code

variable {s : List Bool}

@[simp] theorem shape_nil : shape [] s = s := rfl

@[simp] theorem shape_cons (l : Line) (code : Code) : shape (l :: code) s = shape code (l.shape s) := rfl

@[simp] theorem shape_append (a b : Code) : shape (a ++ b) s = shape b (shape a s) := List.foldl_append

/-- What a call keeps lies above the frame pointer of the caller. -/
def kept (n : Nat) (s : List Bool) : List Bool := List.replicate n false ++ true :: s

theorem shape_js (n : Nat) : Line.shape (kept n s) (.op .js) = false :: s := by
  have hdrop : (kept n s).dropWhile (!·) = true :: s := by
    rw [kept, List.dropWhile_append_of_pos (by simp)]
    rfl
  rw [Line.shape, hdrop]
  rfl

theorem kept_inj {n m : Nat} {s t : List Bool} (h : kept n s = kept m t) : n = m := by
  have hlen : ∀ n s, ((kept n s).takeWhile (!·)).length = n := fun n s => by
    rw [kept, List.takeWhile_append_of_pos (by simp)]
    simp
  rw [← hlen n s, h, hlen]

end Code

section

open Code

variable {M : Nat}

theorem Line.shape_frame (u : Use) (e : Entry) (s : List Bool) : ∃ b, Code.shape (Line.frame u e) s = b :: s := by
  suffices hall : ∀ (n : Nat) (b : Bool), ∃ b', Code.shape (List.replicate n (.op .lw)) (b :: s) = b' :: s from
    hall (u.level - e.level) true
  intro n
  induction n with
  | zero => exact fun b => ⟨b, rfl⟩
  | succ n ih => exact fun _ => ih false

theorem Use.shape_load {u : Use} (h : u.entry.isSome) (s : List Bool) : shape u.load s = false :: s := by
  obtain ⟨e, he⟩ := Option.isSome_iff_exists.1 h
  obtain ⟨b, hb⟩ := Line.shape_frame u e s
  rw [Use.load, he, shape_append, hb]
  rfl

theorem Use.exists_invoke {u : Use} (h : u.entry.isSome) :
    ∃ init, u.invoke = init ++ [.op .js] ∧ ∀ s, shape init s = false :: false :: s := by
  obtain ⟨e, he⟩ := Option.isSome_iff_exists.1 h
  refine ⟨_, by rw [Use.invoke, he], fun s => ?_⟩
  obtain ⟨b, hb⟩ := Line.shape_frame u e s
  rw [shape_append, shape_append, shape_append, hb]
  split <;> rfl

theorem Use.exists_dispatch {u : Use} {method : Option Entry} (h : u.entry.isSome ∧ method.isSome) :
    ∃ init, u.dispatch method = init ++ [.op .js] ∧ ∀ s, shape init s = false :: false :: s := by
  obtain ⟨e, he⟩ := Option.isSome_iff_exists.1 h.1
  obtain ⟨d, rfl⟩ := Option.isSome_iff_exists.1 h.2
  refine ⟨Line.frame u e ++ Line.loadAt e.offset ++ Line.shareLink ++ [.op .lw] ++ Line.loadAt d.offset,
    by simp only [Use.dispatch, he], fun s => ?_⟩
  obtain ⟨b, hb⟩ := Line.shape_frame u e s
  rw [shape_append, shape_append, shape_append, shape_append, hb]
  rfl

theorem shape_instantiate {cls : Option Entry} (h : cls.isSome) (n : Nat) (s : List Bool) :
    shape (instantiate M n cls) (List.replicate n false ++ s) = false :: s := by
  obtain ⟨e, rfl⟩ := Option.isSome_iff_exists.1 h
  have hall : ∀ n, shape (List.replicate n Line.allocate).flatten (List.replicate n false ++ s) = s := by
    intro n
    induction n with
    | zero => rfl
    | succ n ih =>
      rw [List.replicate_succ, List.flatten_cons, shape_append]
      exact ih
  rw [instantiate]
  simp only [shape_append, shape_cons, hall]
  rfl

mutual

/-- **The code of an expression leaves one value.** -/
theorem Expr.shape_code : ∀ (e : Expr) (k : Nat) (s : List Bool), (∀ x ∈ e.nodes, x.Complete) →
    shape (e.code M k) s = false :: s
  | .int _ _, _, _, _ | .bool _ _, _, _, _ | .null _, _, _, _ => rfl
  | .binary _ op a b, k, s, h => by
    obtain ⟨-, ha, hb⟩ := Expr.forall_nodes_binary.1 h
    have ha := fun k s => a.shape_code k s ha
    have hb := fun k s => b.shape_code k s hb
    cases op <;>
      simp only [Expr.code, shape_append, ha, hb, shape_cons, shape_nil, Line.truthOf] <;> rfl
  | .not _ a, k, s, h => by
    rw [Expr.code, shape_append, a.shape_code _ _ (Expr.forall_nodes_not.1 h).2]
    rfl
  | .cond _ c t e, k, s, h => by
    obtain ⟨-, hc, ht, he⟩ := Expr.forall_nodes_cond.1 h
    have hc := fun k s => c.shape_code k s hc
    have ht := fun k s => t.shape_code k s ht
    have he := fun k s => e.shape_code k s he
    simp only [Expr.code, shape_append, hc, shape_cons, shape_nil, Line.shape, List.drop_succ_cons, List.drop_zero, he,
      ht]
  | .print _ a, k, s, h => by
    rw [Expr.code, shape_append, a.shape_code _ _ (Expr.forall_nodes_print.1 h).2]
    rfl
  | .id _ u, _, s, h => Use.shape_load (h _ List.mem_cons_self) s
  | .call _ u args, k, s, h => by
    obtain ⟨hu, hargs⟩ := Expr.forall_nodes_call.1 h
    obtain ⟨init, hinit, hshape⟩ := u.exists_invoke hu
    rw [Expr.code, hinit, shape_append, shape_cons, shape_codeBack args k _ hargs, shape_append, hshape]
    exact shape_js (args.length + 2)
  | .send _ u _ d args, k, s, h => by
    obtain ⟨hu, hargs⟩ := Expr.forall_nodes_send.1 h
    obtain ⟨init, hinit, hshape⟩ := u.exists_dispatch hu
    rw [Expr.code, hinit, shape_append, shape_cons, shape_codeBack args k _ hargs, shape_append, hshape]
    exact shape_js (args.length + 2)
  | .new _ _ c args, k, s, h => by
    obtain ⟨hc, hargs⟩ := Expr.forall_nodes_new.1 h
    rw [Expr.code, shape_append, shape_codeAll args k s hargs]
    exact shape_instantiate hc args.length s

theorem shape_codeAll : ∀ (es : List Expr) (k : Nat) (s : List Bool), (∀ x ∈ argNodes es, x.Complete) →
    shape (codeAll M k es) s = List.replicate es.length false ++ s
  | [], _, _, _ => rfl
  | e :: es, k, s, h => by
    obtain ⟨he, hes⟩ := forall_argNodes_cons.1 h
    rw [codeAll, shape_append, e.shape_code k s he, shape_codeAll es _ _ hes, List.length_cons,
      List.replicate_succ', List.append_assoc]
    rfl

theorem shape_codeBack : ∀ (es : List Expr) (k : Nat) (s : List Bool), (∀ x ∈ argNodes es, x.Complete) →
    shape (codeBack M k es) s = List.replicate es.length false ++ s
  | [], _, _, _ => rfl
  | e :: es, k, s, h => by
    obtain ⟨he, hes⟩ := forall_argNodes_cons.1 h
    rw [codeBack, shape_append, shape_codeBack es k s hes, e.shape_code _ _ he]
    rfl

end

/-- **When the `js` of a call is run, its arguments, the access link and the address lie above the frame pointer.** -/
theorem Expr.exists_call {call : Expr} {args : List Expr} (ha : call.arguments? = some args)
    (h : ∀ x ∈ call.nodes, x.Complete) (k : Nat) : ∃ init, call.code M k = init ++ [.op .js] ∧
      ∀ s, shape init s = kept (args.length + 2) s := by
  cases call <;> cases ha
  case call l u =>
    obtain ⟨hu, hargs⟩ := Expr.forall_nodes_call.1 h
    obtain ⟨init, hinit, hshape⟩ := u.exists_invoke hu
    refine ⟨_, by rw [Expr.code, hinit, ← List.append_assoc], fun s => ?_⟩
    rw [shape_append, shape_cons, shape_codeBack args k _ hargs, hshape]
    rfl
  case send l u x d =>
    obtain ⟨hu, hargs⟩ := Expr.forall_nodes_send.1 h
    obtain ⟨init, hinit, hshape⟩ := u.exists_dispatch hu
    refine ⟨_, by rw [Expr.code, hinit, ← List.append_assoc], fun s => ?_⟩
    rw [shape_append, shape_cons, shape_codeBack args k _ hargs, hshape]
    rfl

namespace Code

/-- A call with so many arguments ends right before these lines, the last ones of a code. -/
def CallsWith (code : Code) (memory : Nat) (rest : Code) (n : Nat) : Prop :=
  ∃ (call : Expr) (args : List Expr) (k : Nat), call.arguments? = some args ∧ args.length = n ∧
    (∀ x ∈ call.nodes, x.Complete ∧ x.OffsetsFit) ∧ call.code memory k ++ rest <:+ code

/-- A routine of a code takes so many arguments: its code drops them before it returns. -/
def Takes (code : Code) (memory f n : Nat) : Prop :=
  code.address (.routine f) ≤ Text.maxInt32 ∧ ∃ (k : Nat) (locals : List Dec) (body : Expr) (after : Code),
    (∀ x ∈ localNodes locals ++ body.nodes, x.Complete ∧ x.OffsetsFit) ∧
    routineCode f n locals.length (localCode memory k (f + 1) locals)
      (body.code memory (k + localLabels locals)) ++ after <:+ code

/-- **Calls that end at one place have the same number of arguments.** -/
theorem CallsWith.unique {code rest : Code} {n n' : Nat} (h : code.CallsWith M rest n) (h' : code.CallsWith M rest n') :
    n = n' := by
  obtain ⟨call, args, k, hargs, rfl, hc, hs⟩ := h
  obtain ⟨call', args', k', hargs', rfl, hc', hs'⟩ := h'
  obtain ⟨init, hinit, hshape⟩ := Expr.exists_call (M := M) hargs (fun x hx => (hc x hx).1) k
  obtain ⟨init', hinit', hshape'⟩ := Expr.exists_call (M := M) hargs' (fun x hx => (hc' x hx).1) k'
  rw [hinit, List.append_assoc] at hs
  rw [hinit', List.append_assoc] at hs'
  -- one of the two begins inside the other one, whatever lies on the stack there
  have hinside : ∀ {n m : Nat} {x y : Code}, (∀ s, shape x s = kept (n + 2) s) → (∀ s, shape y s = kept (m + 2) s) →
      x ++ ([.op .js] ++ rest) <:+ y ++ ([.op .js] ++ rest) → n = m := by
    rintro n m x y hx hy ⟨z, hz⟩
    rw [← List.append_assoc] at hz
    have hy' := hy []
    rw [← List.append_cancel_right hz, shape_append, hx] at hy'
    exact Nat.add_right_cancel (kept_inj hy')
  rcases List.suffix_or_suffix_of_suffix hs hs' with h | h
  · exact hinside hshape hshape' h
  · exact (hinside hshape' hshape h).symm

end Code

end

end FoolLang
