import FoolLang.Proofs.Operands
/-!
# Templates — code for memories of every size

The size of the memory occurs in generated code at one kind of place: an instantiation pushes it, to find the global
frame from there (`PushesMemory`).  Everywhere else the code is the same for all memories (`Program.alike_code`).  In a
template a number that is no 32-bit integer stands for the size; a template filled in is the code for a memory
(`Program.fill_code`).
-/
namespace FoolLang

open Assembly

/-- Line `i` of a code is where one of these instantiations pushes the size of the memory, its arguments evaluated and
its fields moved to the heap. -/
def PushesMemory (memory : Nat) (nodes : List Expr) (code : Code) (i : Nat) : Prop :=
  ∃ pre l cls e args k post, Expr.new l cls (some e) args ∈ nodes ∧
    code = pre ++ (Expr.new l cls (some e) args).code memory k ++ post ∧
    i = (pre ++ codeAll memory k args ++ (List.replicate args.length Line.allocate).flatten).length

namespace PushesMemory

variable {m i : Nat} {N : List Expr} {a b : Code}

theorem append_right (h : PushesMemory m N a i) (b : Code) : PushesMemory m N (a ++ b) i := by
  obtain ⟨pre, l, cls, e, args, k, post, hm, rfl, hi⟩ := h
  exact ⟨pre, l, cls, e, args, k, post ++ b, hm, List.append_assoc _ _ _, hi⟩

theorem append_left (h : PushesMemory m N b i) (a : Code) : PushesMemory m N (a ++ b) (a.length + i) := by
  obtain ⟨pre, l, cls, e, args, k, post, hm, rfl, rfl⟩ := h
  refine ⟨a ++ pre, l, cls, e, args, k, post, hm, by simp only [List.append_assoc], ?_⟩
  simp only [List.append_assoc]
  exact List.length_append.symm

theorem getElem? (h : PushesMemory m N a i) : a[i]? = some (.push m) := by
  obtain ⟨pre, l, cls, e, args, k, post, -, rfl, rfl⟩ := h
  rw [Expr.code, instantiate]
  simp only [List.append_assoc, List.cons_append]
  rw [← List.append_assoc, ← List.append_assoc, List.append_assoc pre, List.getElem?_append_right (Nat.le_refl _),
    Nat.sub_self]
  rfl

end PushesMemory

/-- Two codes for memories of sizes `m` and `m'` differ at most where these sizes are pushed. -/
structure Code.Alike (N : List Expr) (m m' : Nat) (a b : Code) : Prop where
  length : a.length = b.length
  lines : ∀ i, a[i]? = b[i]? ∨ PushesMemory m N a i ∧ PushesMemory m' N b i

namespace Code.Alike

variable {N : List Expr} {m m' : Nat} {a a' b b' : Code}

theorem refl (a : Code) : Code.Alike N m m' a a := ⟨rfl, fun _ => .inl rfl⟩

theorem append (ha : Code.Alike N m m' a a') (hb : Code.Alike N m m' b b') :
    Code.Alike N m m' (a ++ b) (a' ++ b') := by
  refine ⟨by rw [List.length_append, List.length_append, ha.length, hb.length], fun i => ?_⟩
  rcases Nat.lt_or_ge i a.length with hi | hi
  · rw [List.getElem?_append_left hi, List.getElem?_append_left (ha.length ▸ hi)]
    exact (ha.lines i).imp_right fun ⟨h, h'⟩ => ⟨h.append_right b, h'.append_right b'⟩
  · obtain ⟨j, rfl⟩ := Nat.exists_eq_add_of_le hi
    have hlines := hb.lines j
    rw [List.getElem?_append_right hi, List.getElem?_append_right (ha.length ▸ hi), Nat.add_sub_cancel_left,
      ← ha.length, Nat.add_sub_cancel_left]
    exact hlines.imp_right fun ⟨h, h'⟩ => ⟨h.append_left a, ha.length ▸ h'.append_left a'⟩

/-- Two codes that are alike, each followed by a line that pushes the size. -/
theorem pushes {x x' : Line} {c : Code} (h : Code.Alike N m m' a a') (hp : PushesMemory m N (a ++ x :: c) a.length)
    (hp' : PushesMemory m' N (a' ++ x' :: c) a'.length) : Code.Alike N m m' (a ++ x :: c) (a' ++ x' :: c) := by
  refine ⟨by simp only [List.length_append, List.length_cons, h.length], fun i => ?_⟩
  rcases Nat.lt_trichotomy i a.length with hi | rfl | hi
  · rw [List.getElem?_append_left hi, List.getElem?_append_left (h.length ▸ hi)]
    exact (h.lines i).imp_right fun ⟨h, h'⟩ => ⟨h.append_right _, h'.append_right _⟩
  · exact .inr ⟨hp, h.length ▸ hp'⟩
  · obtain ⟨j, rfl⟩ := Nat.exists_eq_add_of_lt hi
    refine .inl ?_
    rw [List.getElem?_append_right (by omega), List.getElem?_append_right (by rw [← h.length]; omega), ← h.length,
      show a.length + j + 1 - a.length = j + 1 by omega, List.getElem?_cons_succ, List.getElem?_cons_succ]

/-- The code of an instantiation differs where it pushes the size, and within its arguments. -/
theorem new {l k : Nat} {cls : Ident} {entry : Option Entry} {args : List Expr}
    (h : Code.Alike N m m' (codeAll m k args) (codeAll m' k args)) (hN : Expr.new l cls entry args ∈ N) :
    Code.Alike N m m' ((Expr.new l cls entry args).code m k) ((Expr.new l cls entry args).code m' k) := by
  cases entry with
  | none => exact h.append (.refl [])
  | some e =>
    have hcode : ∀ M, (Expr.new l cls (some e) args).code M k =
        (codeAll M k args ++ (List.replicate args.length Line.allocate).flatten) ++
          .push M :: (Line.loadAt e.offset ++ [.op .lhp, .op .sw, .op .lhp] ++ Line.bumpHeap) := fun M => by
      rw [Expr.code, instantiate]
      simp only [List.append_assoc, List.cons_append]
    have hpush : ∀ M, PushesMemory M N ((Expr.new l cls (some e) args).code M k)
        (codeAll M k args ++ (List.replicate args.length Line.allocate).flatten).length := fun M =>
      ⟨[], l, cls, e, args, k, [], hN, by rw [List.append_nil, List.nil_append], rfl⟩
    simp only [hcode] at hpush ⊢
    exact (h.append (.refl _)).pushes (hpush m) (hpush m')

end Code.Alike

section

variable {N : List Expr} (m m' : Nat)

mutual

/-- **The code of an expression is alike for all memories.** -/
theorem Expr.alike_code : ∀ (e : Expr) (k : Nat), (∀ n ∈ e.nodes, n ∈ N) →
    Code.Alike N m m' (e.code m k) (e.code m' k)
  | .int _ _, _, _ | .bool _ _, _, _ | .null _, _, _ | .id _ _, _, _ => .refl _
  | .binary _ op a b, k, h => by
    obtain ⟨-, ha, hb⟩ := Expr.forall_nodes_binary.1 h
    cases op with
    | plus | minus | times | div => exact .append (.append (a.alike_code k ha) (b.alike_code _ hb)) (.refl _)
    | equal | lessEqual => exact .append (.append (a.alike_code _ ha) (b.alike_code _ hb)) (.refl _)
    | greaterEqual => exact .append (.append (b.alike_code _ hb) (a.alike_code _ ha)) (.refl _)
    | and | or =>
      exact .append (.append (.append (.append (a.alike_code _ ha) (.refl _)) (b.alike_code _ hb)) (.refl _)) (.refl _)
  | .not _ a, k, h => .append (a.alike_code _ (Expr.forall_nodes_not.1 h).2) (.refl _)
  | .cond _ c t e, k, h => by
    obtain ⟨-, hc, ht, he⟩ := Expr.forall_nodes_cond.1 h
    exact .append (.append (.append (.append (.append (c.alike_code _ hc) (.refl _)) (e.alike_code _ he)) (.refl _))
      (t.alike_code _ ht)) (.refl _)
  | .print _ a, k, h => .append (a.alike_code k (Expr.forall_nodes_print.1 h).2) (.refl _)
  | .call _ _ args, k, h =>
    .append (.append (.refl [_]) (alike_codeBack args k (Expr.forall_nodes_call.1 h).2)) (.refl _)
  | .send _ _ _ _ args, k, h =>
    .append (.append (.refl [_]) (alike_codeBack args k (Expr.forall_nodes_send.1 h).2)) (.refl _)
  | .new _ _ _ args, k, h =>
    .new (alike_codeAll args k (Expr.forall_nodes_new.1 h).2) (Expr.forall_nodes_new.1 h).1

theorem alike_codeAll : ∀ (es : List Expr) (k : Nat), (∀ n ∈ argNodes es, n ∈ N) →
    Code.Alike N m m' (codeAll m k es) (codeAll m' k es)
  | [], _, _ => .refl []
  | e :: es, k, h =>
    .append (e.alike_code k (forall_argNodes_cons.1 h).1) (alike_codeAll es _ (forall_argNodes_cons.1 h).2)

theorem alike_codeBack : ∀ (es : List Expr) (k : Nat), (∀ n ∈ argNodes es, n ∈ N) →
    Code.Alike N m m' (codeBack m k es) (codeBack m' k es)
  | [], _, _ => .refl []
  | e :: es, k, h =>
    .append (alike_codeBack es k (forall_argNodes_cons.1 h).2) (e.alike_code _ (forall_argNodes_cons.1 h).1)

end

theorem alike_localCode : ∀ (ds : List Dec) (k f : Nat), (∀ n ∈ localNodes ds, n ∈ N) →
    Code.Alike N m m' (localCode m k f ds) (localCode m' k f ds)
  | [], _, _, _ => .refl []
  | d :: ds, k, f, h => by
    obtain ⟨hd, hds⟩ := forall_localNodes_cons.1 h
    refine .append ?_ (alike_localCode ds _ _ hds)
    cases d with
    | var _ _ _ v => exact v.alike_code m m' k hd
    | func => exact .refl _

mutual

theorem Dec.alike_routineCode : ∀ (d : Dec) (k f : Nat), (∀ n ∈ d.nodes, n ∈ N) →
    Code.Alike N m m' (d.routineCode m k f) (d.routineCode m' k f)
  | .var _ _ _ _, _, _, _ => .refl []
  | .func _ _ _ _ ls body, k, f, h => by
    obtain ⟨hls, hb⟩ := Dec.forall_nodes_func.1 h
    have hdecs := alike_localCode m m' ls k (f + 1) hls
    have hbody := body.alike_code m m' (k + localLabels ls) hb
    exact .append (alike_localRoutineCode ls k (f + 1) hls) (.append (.append (.append (.append (.append (.append
      (.append (.refl [_, _, _]) hdecs) hbody) (.refl _)) (.refl _)) (.refl _)) (.refl _)) (.refl _))

theorem alike_localRoutineCode : ∀ (ds : List Dec) (k f : Nat), (∀ n ∈ localNodes ds, n ∈ N) →
    Code.Alike N m m' (localRoutineCode m k f ds) (localRoutineCode m' k f ds)
  | [], _, _, _ => .refl []
  | d :: ds, k, f, h =>
    .append (d.alike_routineCode k f (forall_localNodes_cons.1 h).1)
      (alike_localRoutineCode ds _ _ (forall_localNodes_cons.1 h).2)

end

theorem alike_methodRoutineCode : ∀ (ms : List Method) (k f : Nat), (∀ d ∈ ms, ∀ n ∈ d.nodes, n ∈ N) →
    Code.Alike N m m' (methodRoutineCode m k f ms) (methodRoutineCode m' k f ms)
  | [], _, _, _ => .refl []
  | d :: ms, k, f, h =>
    .append (Dec.alike_routineCode m m' (.func d.line d.id d.ret d.params d.locals d.body) k f
      (List.forall_mem_cons.1 h).1) (alike_methodRoutineCode ms _ _ (List.forall_mem_cons.1 h).2)

theorem alike_classRoutineCode : ∀ (cs : List Class) (k f : Nat), (∀ c ∈ cs, ∀ d ∈ c.methods, ∀ n ∈ d.nodes, n ∈ N) →
    Code.Alike N m m' (classRoutineCode m k f cs) (classRoutineCode m' k f cs)
  | [], _, _, _ => .refl []
  | c :: cs, k, f, h =>
    .append (alike_methodRoutineCode m m' c.methods k f (List.forall_mem_cons.1 h).1)
      (alike_classRoutineCode cs _ _ (List.forall_mem_cons.1 h).2)

/-- **The codes of a program for two memories differ only where instantiations push the size.** -/
theorem Program.alike_code (p : Program) : Code.Alike p.nodes m m' (p.code m) (p.code m') := by
  obtain ⟨hcs, hds, hb⟩ := Program.forall_nodes.1 fun n (hn : n ∈ p.nodes) => hn
  cases p with
  | expr body => exact .append (body.alike_code m m' 0 hb) (.refl _)
  | letIn cs ds body =>
    exact .append (.append (.append (.append (.append (.refl (_ :: _)) (alike_localCode m m' ds _ _ hds))
      (body.alike_code m m' _ hb)) (.refl _)) (alike_classRoutineCode m m' cs _ _ hcs))
      (alike_localRoutineCode m m' ds _ _ hds)

end

/-! ## Templates -/

/-- The number that stands for the size of the memory. -/
def Code.mark : Nat := Text.maxInt32 + 1

def Line.fill (memory : Nat) : Line → Line
  | .push n => if n = Code.mark then .push memory else .push n
  | line => line

/-- The code for a memory of this size. -/
def Code.fill (memory : Nat) (template : Code) : Code := template.map (Line.fill memory)

theorem ne_mark {n : Int} (h : FitsWord n) : n ≠ Code.mark := by
  rintro rfl
  revert h
  decide

theorem Line.fill_of_fits {line : Line} (h : line.Fits) (memory : Nat) : line.fill memory = line := by
  cases line with
  | push n => exact if_neg (ne_mark h)
  | _ => rfl

theorem Code.Sound.fits {n g : Nat} {code : Code} (h : code.Sound n g) : ∀ line ∈ code, line.Fits := fun line hl => by
  have hs := h line hl
  cases line with
  | push v => exact hs
  | _ => trivial

/-- A code that is alike a template is what the template is for this memory. -/
theorem Code.Alike.fill {N : List Expr} {memory : Nat} {template code : Code}
    (h : Code.Alike N Code.mark memory template code) (hf : ∀ line ∈ code, line.Fits) :
    template.fill memory = code := by
  refine List.ext_getElem? fun i => ?_
  rw [Code.fill, List.getElem?_map]
  rcases h.lines i with he | ⟨hp, hp'⟩
  · rw [he]
    cases hi : code[i]? with
    | none => rfl
    | some line =>
      rw [Option.map_some, Line.fill_of_fits (hf line (List.mem_of_getElem? hi))]
  · rw [hp.getElem?, hp'.getElem?]
    rfl

theorem Program.fill_code {p : Program} {memory : Nat} (hm : memory ≤ Text.maxInt32)
    (h : ∀ n ∈ p.nodes, n.OffsetsFit) : (p.code Code.mark).fill memory = p.code memory :=
  (p.alike_code Code.mark memory).fill (wellFormed_program hm h).fits

theorem Expr.fill_code {e : Expr} {memory k : Nat} (hm : memory ≤ Text.maxInt32) (h : ∀ n ∈ e.nodes, n.OffsetsFit) :
    (e.code Code.mark k).fill memory = e.code memory k :=
  (e.alike_code (N := e.nodes) Code.mark memory k fun _ hn => hn).fill (Code.Sound.fits (e.sound_code hm k h))

theorem fill_codeBack {args : List Expr} {memory k : Nat} (hm : memory ≤ Text.maxInt32)
    (h : ∀ n ∈ argNodes args, n.OffsetsFit) : (codeBack Code.mark k args).fill memory = codeBack memory k args :=
  (alike_codeBack (N := argNodes args) Code.mark memory args k fun _ hn => hn).fill
    (Code.Sound.fits (sound_codeBack hm args k h))

theorem fill_localCode {ds : List Dec} {memory k f : Nat} (hm : memory ≤ Text.maxInt32)
    (h : ∀ n ∈ localNodes ds, n.OffsetsFit) : (localCode Code.mark k f ds).fill memory = localCode memory k f ds :=
  (alike_localCode (N := localNodes ds) Code.mark memory ds k f fun _ hn => hn).fill
    (Code.Sound.fits (sound_localCode hm ds k f h))

namespace Code

variable {M : Nat}

theorem fill_append (a b : Code) : Code.fill M (a ++ b) = a.fill M ++ b.fill M := List.map_append

theorem isInstr_fill (line : Line) : (line.fill M).isInstr = line.isInstr := by
  cases line with
  | push n =>
    simp only [Line.fill]
    split <;> rfl
  | _ => rfl

theorem fill_eq_define {line : Line} {l : Label} : line.fill M = .define l ↔ line = .define l := by
  cases line with
  | push n =>
    simp only [Line.fill]
    split <;> simp
  | _ => rfl

theorem count_define_fill (code : Code) (l : Label) : (code.fill M).count (.define l) = code.count (.define l) := by
  rw [List.count_eq_countP, fill, List.countP_map, List.count_eq_countP]
  congr 1
  funext line
  rw [Bool.eq_iff_iff, Function.comp_apply, beq_iff_eq, beq_iff_eq, fill_eq_define]

theorem fill_routineCode (f n locals : Nat) (decs body : Code) : Code.fill M (routineCode f n locals decs body) =
    routineCode f n locals (decs.fill M) (body.fill M) := by
  simp only [routineCode, fill, List.map_append, List.map_cons, List.map_nil, List.map_replicate, Line.fill]

theorem size_fill (code : Code) : (code.fill M).size = code.size := by
  rw [size, fill, List.countP_map, size]
  congr 1
  funext line
  exact isInstr_fill line

theorem address_fill (code : Code) (l : Label) : (code.fill M).address l = code.address l := by
  have hp : (fun line => decide (line ≠ Line.define l)) ∘ Line.fill M =
      fun line => decide (line ≠ Line.define l) := by
    funext line
    simp only [Function.comp_apply, ne_eq, fill_eq_define]
  rw [address, fill, List.takeWhile_map, hp]
  exact size_fill _

theorem addressable_fill {code : Code} : (code.fill M).Addressable ↔ code.Addressable := by
  have hmem : ∀ l, .pushLabel l ∈ code.fill M ↔ .pushLabel l ∈ code := fun l => by
    rw [fill, List.mem_map]
    refine ⟨fun ⟨line, hline, he⟩ => ?_, fun h => ⟨_, h, rfl⟩⟩
    cases line with
    | push n =>
      simp only [Line.fill] at he
      split at he <;> cases he
    | pushLabel m => exact he ▸ hline
    | _ => cases he
  simp only [Addressable, hmem, address_fill]

end Code
end FoolLang
