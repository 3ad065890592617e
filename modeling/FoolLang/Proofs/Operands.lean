import FoolLang.Proofs.Labels
import FoolLang.Proofs.Nodes
/-!
# Operands — what the lines of generated code operate on

A branch goes to a branch label, what is pushed is a number of 32 bits or a routine label, and these labels are among
those the code defines (`sound_program`).  Numbers can fail to fit only where they come from: the offsets in the
entries of the tree, and the size of the memory.
-/
namespace FoolLang

open Assembly

/-- What a line operates on is right: a number that fits 32 bits, or a label of the right kind below the counts. -/
def Line.Sound (n g : Nat) : Line → Prop
  | .push v => FitsWord v
  | .branch _ (.branch i) => i < n
  | .branch _ (.routine _) => False
  | .pushLabel (.routine i) => i < g
  | .pushLabel (.branch _) => False
  | _ => True

theorem Line.Sound.mono {n n' g g' : Nat} (hn : n ≤ n') (hg : g ≤ g') {line : Line} (h : line.Sound n g) :
    line.Sound n' g' := by
  cases line with
  | branch b l => cases l with
    | branch i => exact Nat.lt_of_lt_of_le h hn
    | routine i => exact h
  | pushLabel l => cases l with
    | branch i => exact h
    | routine i => exact Nat.lt_of_lt_of_le h hg
  | _ => trivial

def Code.Sound (n g : Nat) (code : Code) : Prop := ∀ line ∈ code, line.Sound n g

namespace Code.Sound

variable {n n' g g' : Nat} {a b code : Code}

theorem mono (hn : n ≤ n') (hg : g ≤ g') (h : code.Sound n g) : code.Sound n' g' :=
  fun line hl => (h line hl).mono hn hg

theorem nil : Code.Sound n g [] := fun _ h => by cases h

theorem cons {line : Line} (hl : line.Sound n g) (h : code.Sound n g) : Code.Sound n g (line :: code) := by
  rintro _ (_ | ⟨_, hm⟩)
  · exact hl
  · exact h _ hm

theorem append (ha : a.Sound n g) (hb : b.Sound n g) : Code.Sound n g (a ++ b) := fun line hl =>
  (List.mem_append.1 hl).elim (ha line) (hb line)

theorem replicate_op (m : Nat) (o : Op) : Code.Sound n g (List.replicate m (.op o)) := fun line hl => by
  rw [List.eq_of_mem_replicate hl]
  trivial

theorem frame (u : Use) (e : Entry) : Code.Sound n g (Line.frame u e) := .cons trivial (.replicate_op _ _)

theorem loadAt {offset : Int} (h : FitsWord offset) : Code.Sound n g (Line.loadAt offset) :=
  .cons h (.cons trivial (.cons trivial .nil))

theorem shareLink : Code.Sound n g Line.shareLink := .cons trivial (.cons trivial (.cons trivial .nil))

theorem bumpHeap : Code.Sound n g Line.bumpHeap :=
  .cons trivial (.cons (show FitsWord 1 by decide) (.cons trivial (.cons trivial .nil)))

theorem allocate : Code.Sound n g Line.allocate := .append (.cons trivial (.cons trivial .nil)) .bumpHeap

theorem load {u : Use} (h : ∀ e ∈ u.entry, FitsWord e.offset) : Code.Sound n g u.load := by
  unfold Use.load
  split
  · exact .nil
  · rename_i e he
    exact .append (.frame _ _) (.loadAt (h e he))

theorem invoke {u : Use} (h : ∀ e ∈ u.entry, FitsWord e.offset) : Code.Sound n g u.invoke := by
  unfold Use.invoke
  split
  · exact .nil
  · rename_i e he
    refine .append (.append (.append (.append (.frame _ _) .shareLink) ?_) (.loadAt (h e he))) (.cons trivial .nil)
    split
    · exact .cons trivial .nil
    · exact .nil

theorem dispatch {u : Use} {m : Option Entry} (hu : ∀ e ∈ u.entry, FitsWord e.offset)
    (hm : ∀ e ∈ m, FitsWord e.offset) : Code.Sound n g (u.dispatch m) := by
  unfold Use.dispatch
  split
  · rename_i e me he
    exact .append (.append (.append (.append (.append (.frame _ _) (.loadAt (hu e he))) .shareLink)
      (.cons trivial .nil)) (.loadAt (hm me rfl))) (.cons trivial .nil)
  · exact .nil

theorem instantiate {M : Nat} (hM : M ≤ Text.maxInt32) (m : Nat) {e : Option Entry}
    (h : ∀ x ∈ e, FitsWord x.offset) : Code.Sound n g (instantiate M m e) := by
  unfold FoolLang.instantiate
  split
  · exact .nil
  · refine .append (.append (.append (fun line hl => ?_) (.cons (fitsWord_ofNat hM) (.loadAt (h _ rfl))))
      (.cons trivial (.cons trivial (.cons trivial .nil)))) .bumpHeap
    obtain ⟨part, hp, hl⟩ := List.mem_flatten.1 hl
    rw [List.eq_of_mem_replicate hp] at hl
    exact allocate line hl

theorem truthOf (b : Branch) {k : Nat} (hk : k + 2 ≤ n) : Code.Sound n g (Line.truthOf b k) :=
  .cons (show k < n by omega) (.cons (show FitsWord 0 by decide) (.cons (show k + 1 < n by omega) (.cons trivial
    (.cons (show FitsWord 1 by decide) (.cons trivial .nil)))))

/-- The code between the operands of a short-circuiting operator. -/
theorem test {v : Int} (hv : FitsWord v) {k : Nat} (hk : k < n) :
    Code.Sound n g [.push v, .branch .ifEqual (.branch k)] :=
  .cons hv (.cons hk .nil)

/-- The end of a code with two outcomes. -/
theorem outcomes {v w : Int} (hv : FitsWord v) (hw : FitsWord w) {k : Nat} (hk : k + 1 < n) : Code.Sound n g
    [.push v, .branch .always (.branch (k + 1)), .define (.branch k), .push w, .define (.branch (k + 1))] :=
  .cons hv (.cons hk (.cons trivial (.cons hw (.cons trivial .nil))))

end Code.Sound

section

variable {M : Nat}

mutual

/-- **The code of an expression operates on numbers that fit and on its own labels**, if the offsets in it fit. -/
theorem Expr.sound_code (hM : M ≤ Text.maxInt32) : ∀ (e : Expr) (k : Nat), (∀ n ∈ e.nodes, n.OffsetsFit) →
    (e.code M k).Sound (k + e.labels) 0
  | .int _ n, _, _ => .cons (fitsWord_toInt n) .nil
  | .bool _ b, _, _ => by cases b <;> exact .cons (by decide : FitsWord _) .nil
  | .null _, _, _ => .cons (by decide : FitsWord (-1)) .nil
  | .binary _ op a b, k, h => by
    obtain ⟨-, ha, hb⟩ := Expr.forall_nodes_binary.1 h
    cases op with
    | plus | minus | times | div =>
      simp only [Expr.labels]
      exact .append (.append ((a.sound_code hM k ha).mono (by omega) (Nat.le_refl _))
        ((b.sound_code hM (k + a.labels) hb).mono (by omega) (Nat.le_refl _))) (.cons trivial .nil)
    | equal | lessEqual =>
      simp only [Expr.labels]
      exact .append (.append ((a.sound_code hM (k + 2) ha).mono (by omega) (Nat.le_refl _))
        ((b.sound_code hM (k + 2 + a.labels) hb).mono (by omega) (Nat.le_refl _))) (.truthOf _ (by omega))
    | greaterEqual =>
      simp only [Expr.labels]
      exact .append (.append ((b.sound_code hM (k + 2) hb).mono (by omega) (Nat.le_refl _))
        ((a.sound_code hM (k + 2 + b.labels) ha).mono (by omega) (Nat.le_refl _))) (.truthOf _ (by omega))
    | and | or =>
      simp only [Expr.labels]
      exact .append (.append (.append (.append ((a.sound_code hM (k + 2) ha).mono (by omega) (Nat.le_refl _))
        (.test (by decide) (by omega))) ((b.sound_code hM (k + 2 + a.labels) hb).mono (by omega) (Nat.le_refl _)))
        (.test (by decide) (by omega))) (.outcomes (by decide) (by decide) (by omega))
  | .not _ a, k, h => by
    obtain ⟨-, ha⟩ := Expr.forall_nodes_not.1 h
    simp only [Expr.labels]
    exact .append ((a.sound_code hM (k + 2) ha).mono (by omega) (Nat.le_refl _))
      (.append (.test (v := 1) (by decide) (by omega)) (.outcomes (v := 1) (w := 0) (by decide) (by decide) (by omega)))
  | .cond _ c t e, k, h => by
    obtain ⟨-, hc, ht, he⟩ := Expr.forall_nodes_cond.1 h
    simp only [Expr.labels]
    exact .append (.append (.append (.append (.append ((c.sound_code hM (k + 2) hc).mono (by omega) (Nat.le_refl _))
      (.test (by decide) (by omega))) ((e.sound_code hM (k + 2 + c.labels) he).mono (by omega) (Nat.le_refl _)))
      (.cons (show k + 1 < _ by omega) (.cons trivial .nil)))
      ((t.sound_code hM (k + 2 + c.labels + e.labels) ht).mono (by omega) (Nat.le_refl _))) (.cons trivial .nil)
  | .print _ a, k, h => .append (a.sound_code hM k (Expr.forall_nodes_print.1 h).2) (.cons trivial .nil)
  | .id l u, _, h => .load fun x hx =>
    h (.id l u) (by simp [Expr.nodes]) x (by simpa [Expr.entries] using hx)
  | .call _ u args, k, h => by
    obtain ⟨hu, hargs⟩ := Expr.forall_nodes_call.1 h
    exact .append (.cons trivial (sound_codeBack hM args k hargs))
      (.invoke fun x hx => hu x (by simpa [Expr.entries] using hx))
  | .send _ u _ m args, k, h => by
    obtain ⟨hu, hargs⟩ := Expr.forall_nodes_send.1 h
    exact .append (.cons trivial (sound_codeBack hM args k hargs))
      (.dispatch (fun x hx => hu x (List.mem_append_left _ (by simpa using hx)))
        (fun x hx => hu x (List.mem_append_right _ (by simpa using hx))))
  | .new _ _ e args, k, h => by
    obtain ⟨he, hargs⟩ := Expr.forall_nodes_new.1 h
    exact .append (sound_codeAll hM args k hargs)
      (.instantiate hM _ fun x hx => he x (by simpa [Expr.entries] using hx))

theorem sound_codeAll (hM : M ≤ Text.maxInt32) : ∀ (es : List Expr) (k : Nat), (∀ n ∈ argNodes es, n.OffsetsFit) →
    (codeAll M k es).Sound (k + argLabels es) 0
  | [], _, _ => .nil
  | e :: es, k, h => by
    obtain ⟨he, hes⟩ := forall_argNodes_cons.1 h
    simp only [argLabels]
    exact .append ((e.sound_code hM k he).mono (by omega) (Nat.le_refl _))
      ((sound_codeAll hM es (k + e.labels) hes).mono (by omega) (Nat.le_refl _))

theorem sound_codeBack (hM : M ≤ Text.maxInt32) : ∀ (es : List Expr) (k : Nat), (∀ n ∈ argNodes es, n.OffsetsFit) →
    (codeBack M k es).Sound (k + argLabels es) 0
  | [], _, _ => .nil
  | e :: es, k, h => by
    obtain ⟨he, hes⟩ := forall_argNodes_cons.1 h
    simp only [argLabels]
    exact .append ((sound_codeBack hM es k hes).mono (by omega) (Nat.le_refl _))
      ((e.sound_code hM (k + argLabels es) he).mono (by omega) (Nat.le_refl _))

end

theorem Code.Sound.routineCode {n g m params locals : Nat} {decs body : Code} (hd : decs.Sound n g)
    (hb : body.Sound n g) : (routineCode m params locals decs body).Sound n g :=
  .append (.append (.append (.append (.append (.append (.append (.cons trivial (.cons trivial (.cons trivial .nil)))
    hd) hb) (.cons trivial .nil)) (.replicate_op _ _)) (.cons trivial (.cons trivial .nil))) (.replicate_op _ _))
    (.cons trivial (.cons trivial (.cons trivial (.cons trivial .nil))))

variable (hM : M ≤ Text.maxInt32)

include hM

theorem Dec.sound_code (d : Dec) (k f : Nat) (h : ∀ n ∈ d.nodes, n.OffsetsFit) :
    (d.code M k f).Sound (k + d.labels) (f + d.routines) := by
  cases d with
  | var _ _ _ v => exact (v.sound_code hM k h).mono (Nat.le_refl _) (Nat.zero_le _)
  | func _ _ _ _ ls _ => exact .cons (show f < f + (localRoutines ls + 1) by omega) .nil

theorem sound_localCode : ∀ (ds : List Dec) (k f : Nat), (∀ n ∈ localNodes ds, n.OffsetsFit) →
    (localCode M k f ds).Sound (k + localLabels ds) (f + localRoutines ds)
  | [], _, _, _ => .nil
  | d :: ds, k, f, h => by
    obtain ⟨hd, hds⟩ := forall_localNodes_cons.1 h
    simp only [localLabels, localRoutines]
    exact .append ((d.sound_code hM k f hd).mono (by omega) (by omega))
      ((sound_localCode ds (k + d.labels) (f + d.routines) hds).mono (by omega) (by omega))

omit hM in
mutual

theorem Dec.sound_routineCode (hM : M ≤ Text.maxInt32) : ∀ (d : Dec) (k f : Nat), (∀ n ∈ d.nodes, n.OffsetsFit) →
    (d.routineCode M k f).Sound (k + d.labels) (f + d.routines)
  | .var _ _ _ _, _, _, _ => .nil
  | .func _ _ _ _ ls body, k, f, h => by
    obtain ⟨hls, hb⟩ := Dec.forall_nodes_func.1 h
    simp only [Dec.labels, Dec.routines]
    exact .append ((sound_localRoutineCode hM ls k (f + 1) hls).mono (by omega) (by omega)) (.routineCode
      ((sound_localCode hM ls k (f + 1) hls).mono (by omega) (by omega))
      ((body.sound_code hM (k + localLabels ls) hb).mono (by omega) (Nat.zero_le _)))

theorem sound_localRoutineCode (hM : M ≤ Text.maxInt32) :
    ∀ (ds : List Dec) (k f : Nat), (∀ n ∈ localNodes ds, n.OffsetsFit) →
    (localRoutineCode M k f ds).Sound (k + localLabels ds) (f + localRoutines ds)
  | [], _, _, _ => .nil
  | d :: ds, k, f, h => by
    obtain ⟨hd, hds⟩ := forall_localNodes_cons.1 h
    simp only [localLabels, localRoutines]
    exact .append ((d.sound_routineCode hM k f hd).mono (by omega) (by omega))
      ((sound_localRoutineCode hM ds (k + d.labels) (f + d.routines) hds).mono (by omega) (by omega))

end

theorem Method.sound_routineCode (m : Method) (k f : Nat) (h : ∀ n ∈ m.nodes, n.OffsetsFit) :
    (m.routineCode M k f).Sound (k + m.labels) (f + m.routines) :=
  Dec.sound_routineCode hM (.func m.line m.id m.ret m.params m.locals m.body) k f h

theorem sound_methodRoutineCode : ∀ (ms : List Method) (k f : Nat), (∀ m ∈ ms, ∀ n ∈ m.nodes, n.OffsetsFit) →
    (methodRoutineCode M k f ms).Sound (k + methodLabels ms) (f + methodRoutines ms)
  | [], _, _, _ => .nil
  | m :: ms, k, f, h => by
    obtain ⟨hm, hms⟩ := List.forall_mem_cons.1 h
    simp only [methodLabels, methodRoutines]
    exact .append ((m.sound_routineCode hM k f hm).mono (by omega) (by omega))
      ((sound_methodRoutineCode ms (k + m.labels) (f + m.routines) hms).mono (by omega) (by omega))

theorem sound_classRoutineCode : ∀ (cs : List Class) (k f : Nat),
    (∀ c ∈ cs, ∀ m ∈ c.methods, ∀ n ∈ m.nodes, n.OffsetsFit) →
    (classRoutineCode M k f cs).Sound (k + classLabels cs) (f + classRoutines cs)
  | [], _, _, _ => .nil
  | c :: cs, k, f, h => by
    obtain ⟨hc, hcs⟩ := List.forall_mem_cons.1 h
    simp only [classLabels, classRoutines]
    exact .append ((sound_methodRoutineCode hM c.methods k f hc).mono (by simp only [Class.labels]; omega)
        (by simp only [Class.routines]; omega))
      ((sound_classRoutineCode cs (k + c.labels) (f + c.routines) hcs).mono (by omega) (by omega))

end

/-- The dispatch tables of routines below a number. -/
def Tables.Sound (g : Nat) (tables : Tables) : Prop :=
  ∀ c table, tables.lookup c = some table → ∀ l ∈ table, ∃ i, l = .routine i ∧ i < g

theorem mem_place {α : Type} {i : Nat} {a b : α} {l : List α} (h : b ∈ place i a l) : b = a ∨ b ∈ l := by
  unfold place at h
  split at h
  · exact (List.mem_or_eq_of_mem_set h).symm
  · simpa [or_comm] using h

theorem fillTable_sound : ∀ (ms : List Method) (table : List Label) (f g : Nat), f + methodRoutines ms ≤ g →
    (∀ l ∈ table, ∃ i, l = .routine i ∧ i < g) → ∀ l ∈ fillTable table f ms, ∃ i, l = .routine i ∧ i < g
  | [], _, _, _, _, h => h
  | m :: ms, table, f, g, hg, h => by
    simp only [methodRoutines, Method.routines] at hg
    refine fillTable_sound ms _ (f + m.routines) g (by simp only [Method.routines]; omega) fun l hl => ?_
    rcases mem_place hl with rfl | hl
    · exact ⟨f, rfl, by omega⟩
    · exact h l hl

theorem Tables.Sound.nil (g : Nat) : Tables.Sound g [] := nofun

theorem Tables.Sound.mono {g g' : Nat} {tables : Tables} (hg : g ≤ g') (h : tables.Sound g) : tables.Sound g' :=
  fun c table ht l hl => by
    obtain ⟨i, hi, hlt⟩ := h c table ht l hl
    exact ⟨i, hi, by omega⟩

theorem Class.dispatchTable_sound {tables : Tables} {f : Nat} (h : tables.Sound f) (c : Class) :
    ∀ l ∈ c.dispatchTable tables f, ∃ i, l = .routine i ∧ i < f + c.routines := by
  refine fillTable_sound c.methods _ f _ (Nat.le_refl _) fun l hl => ?_
  unfold Class.superTable at hl
  split at hl
  · cases hl
  · rename_i s hs
    cases ht : tables.lookup s with
    | none => rw [ht] at hl; cases hl
    | some table =>
      rw [ht] at hl
      obtain ⟨i, hi, hlt⟩ := h s table ht l hl
      exact ⟨i, hi, by omega⟩

theorem Tables.Sound.cons {tables : Tables} {f : Nat} (h : tables.Sound f) (c : Class) :
    Tables.Sound (f + c.routines) ((c.id, c.dispatchTable tables f) :: tables) := by
  intro d table ht l hl
  rw [List.lookup_cons] at ht
  split at ht
  · cases ht
    exact c.dispatchTable_sound h l hl
  · exact h.mono (Nat.le_add_right _ _) d table ht l hl

theorem sound_tableCode {n g : Nat} {table : List Label} (h : ∀ l ∈ table, ∃ i, l = .routine i ∧ i < g) :
    (Class.tableCode table).Sound n g := by
  refine .cons trivial fun line hl => ?_
  obtain ⟨l, hm, hl⟩ := List.mem_flatMap.1 hl
  obtain ⟨i, rfl, hi⟩ := h l hm
  exact Code.Sound.cons (show Line.Sound n g (.pushLabel (.routine i)) from hi) .allocate line hl

theorem sound_classCode (n : Nat) : ∀ (cs : List Class) (tables : Tables) (f : Nat), tables.Sound f →
    (classCode tables f cs).Sound n (f + classRoutines cs)
  | [], _, _, _ => .nil
  | c :: cs, tables, f, h => by
    have hc := sound_tableCode (n := n) (c.dispatchTable_sound h)
    have hcs := sound_classCode n cs _ _ (h.cons c)
    exact .append (hc.mono (Nat.le_refl _) (by simp only [classRoutines]; omega))
      (hcs.mono (Nat.le_refl _) (by simp only [classRoutines]; omega))

/-- **The code of a program operates on numbers that fit and on labels below its counts**, each where its kind
belongs. -/
theorem sound_program {M : Nat} (hM : M ≤ Text.maxInt32) {p : Program} (h : ∀ n ∈ p.nodes, n.OffsetsFit) :
    (p.code M).Sound p.labels p.routines := by
  obtain ⟨hcs, hds, hb⟩ := Program.forall_nodes.1 h
  cases p with
  | expr body =>
    exact .append ((body.sound_code hM 0 hb).mono (by simp [Program.labels]) (Nat.zero_le _)) (.cons trivial .nil)
  | letIn cs ds body =>
    have hcls := sound_classCode (classLabels cs + localLabels ds + body.labels) cs [] 0 (fun c t h => by cases h)
    simp only [Program.labels, Program.routines]
    exact .append (.append (.append (.append (.append (.cons (show FitsWord 0 by decide)
      (hcls.mono (Nat.le_refl _) (by omega)))
      ((sound_localCode hM ds (classLabels cs) (classRoutines cs) hds).mono (by omega) (by omega)))
      ((body.sound_code hM (classLabels cs + localLabels ds) hb).mono (by omega) (by omega))) (.cons trivial .nil))
      ((sound_classRoutineCode hM cs 0 0 hcs).mono (by omega) (by omega)))
      ((sound_localRoutineCode hM ds (classLabels cs) (classRoutines cs) hds).mono (by omega) (by omega))

/-- **The code of a program assembles.** -/
theorem wellFormed_program {M : Nat} (hM : M ≤ Text.maxInt32) {p : Program} (h : ∀ n ∈ p.nodes, n.OffsetsFit) :
    (p.code M).WellFormed where
  fits line hm := by
    have hs := sound_program hM h line hm
    cases line with
    | push v => exact hs
    | _ => trivial
  definedOnce l := by
    rw [count_define_program]
    exact l.among_le_one _ _ _ _
  closed line hm l hu := by
    have hs := sound_program hM h line hm
    refine List.count_pos_iff.1 ?_
    rw [count_define_program]
    cases line with
    | branch b m =>
      obtain rfl : m = l := by simpa [Line.uses] using hu
      cases m with
      | branch i => simp [Label.among, show i < p.labels from hs]
      | routine i => exact hs.elim
    | pushLabel m =>
      obtain rfl : m = l := by simpa [Line.uses] using hu
      cases m with
      | branch i => exact hs.elim
      | routine i => simp [Label.among, show i < p.routines from hs]
    | _ => cases hu

end FoolLang
