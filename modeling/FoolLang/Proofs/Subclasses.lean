import FoolLang.Proofs.Programs
import FoolLang.Proofs.Sentences
/-!
# Subclasses — a class has what its superclasses have

A program names integers, booleans and references only, so all types in a layout are below themselves.  Without errors
the hierarchy is the one that the classes are written with (`Program.superOf_iff`), and a class has the members of
every class that it extends in any number of steps (`subclass_has_members`).
-/
namespace FoolLang

open Text (maxInt32)

/-! ## Types that are written -/

section

variable {α : Type} {P : List LinedToken → α → Prop} {Q : α → Prop} {ts : List LinedToken} {xs : List α}

theorem Many.forall (h : Many P ts xs) (hPQ : ∀ {ts x}, P ts x → Q x) : ∀ x ∈ xs, Q x := by
  induction h with
  | nil => nofun
  | cons head tail ih => exact List.forall_mem_cons.2 ⟨hPQ head, ih⟩

theorem More.forall (h : More P ts xs) (hPQ : ∀ {ts x}, P ts x → Q x) : ∀ x ∈ xs, Q x := by
  induction h with
  | nil => nofun
  | cons head tail ih => exact List.forall_mem_cons.2 ⟨hPQ head, ih⟩

theorem Listed.forall (h : Listed P ts xs) (hPQ : ∀ {ts x}, P ts x → Q x) : ∀ x ∈ xs, Q x := by
  cases h with
  | nil => nofun
  | cons head tail => exact List.forall_mem_cons.2 ⟨hPQ head, tail.forall hPQ⟩

end

theorem allClassFree_iff {ts : List Ty} : allClassFree ts ↔ ∀ t ∈ ts, t.ClassFree := by
  induction ts with
  | nil => exact iff_of_true trivial (List.forall_mem_nil _)
  | cons t ts ih => rw [allClassFree, ih, List.forall_mem_cons]

def Class.ClassFree (c : Class) : Prop := (∀ f ∈ c.fields, f.ty.ClassFree) ∧ ∀ m ∈ c.methods, m.signature.ClassFree

theorem TypeText.classFree {ts : List LinedToken} {ty : Ty} (h : TypeText ts ty) : ty.ClassFree := by
  cases h <;> trivial

theorem BindingText.classFree {ts : List LinedToken} {b : Binding} (h : BindingText ts b) : b.ty.ClassFree := by
  cases h with
  | mk type => exact type.classFree

theorem RoutineText.classFree {dec : List LinedToken → Dec → Prop} {ts : List LinedToken} {m : Method}
    (h : RoutineText dec ts m) : m.signature.ClassFree := by
  cases h with
  | mk heading parameters locals body =>
    refine ⟨allClassFree_iff.2 fun t ht => ?_, heading.classFree⟩
    simp only [List.mem_map] at ht
    obtain ⟨-, ⟨b, hb, rfl⟩, rfl⟩ := ht
    exact parameters.forall BindingText.classFree b hb

theorem ClassText.classFree {ts : List LinedToken} {c : Class} (h : ClassText ts c) : c.ClassFree := by
  cases h with
  | mk parent state routines =>
    refine ⟨fun f hf => ?_, routines.forall RoutineText.classFree⟩
    obtain ⟨b, hb, rfl⟩ := List.mem_map.1 hf
    exact state.forall BindingText.classFree b hb

theorem Sentence.classFree {ts : List LinedToken} {p : Program} (h : Sentence ts p) : ∀ c ∈ p.classes, c.ClassFree := by
  cases h with
  | letIn classes decs body => exact classes.forall ClassText.classFree
  | expr body => nofun

/-! ## Types in layouts -/

def Layout.ClassFree (l : Layout) : Prop := (∀ t ∈ l.fields, t.ClassFree) ∧ ∀ s ∈ l.methods, s.ClassFree

def Env.ClassFree (env : Env) : Prop := ∀ c l, env.layouts.lookup c = some l → l.ClassFree

section

variable {env : Env} {c : Class}

theorem Layout.ClassFree.addField {s : Members} {f : Field} {level : Nat} (hs : s.layout.ClassFree)
    (hf : f.ty.ClassFree) : (s.addField level f).layout.ClassFree := by
  unfold Members.addField
  split
  · exact hs
  · refine ⟨fun t ht => ?_, hs.2⟩
    rcases mem_place ht with rfl | ht
    · exact hf
    · exact hs.1 t ht

theorem Layout.ClassFree.addMethod {s : Members} {m : Method} {level : Nat} (hs : s.layout.ClassFree)
    (hm : m.signature.ClassFree) : (s.addMethod level m).layout.ClassFree := by
  unfold Members.addMethod
  split
  · exact hs
  · refine ⟨hs.1, fun sig hsig => ?_⟩
    rcases mem_place hsig with rfl | hsig
    · exact hm
    · exact hs.2 sig hsig

theorem Layout.ClassFree.addFields {level : Nat} {fs : List Field} {s : Members} (hs : s.layout.ClassFree)
    (hfs : ∀ f ∈ fs, f.ty.ClassFree) : (fs.foldl (Members.addField level) s).layout.ClassFree := by
  induction fs generalizing s with
  | nil => exact hs
  | cons f fs ih =>
    obtain ⟨hf, hfs⟩ := List.forall_mem_cons.1 hfs
    exact ih (hs.addField hf) hfs

theorem Layout.ClassFree.addMethods {level : Nat} {ms : List Method} {s : Members} (hs : s.layout.ClassFree)
    (hms : ∀ m ∈ ms, m.signature.ClassFree) : (ms.foldl (Members.addMethod level) s).layout.ClassFree := by
  induction ms generalizing s with
  | nil => exact hs
  | cons m ms ih =>
    obtain ⟨hm, hms⟩ := List.forall_mem_cons.1 hms
    exact ih (hs.addMethod hm) hms

theorem Env.ClassFree.inherited (h : env.ClassFree) (c : Class) : (env.inherited c).layout.ClassFree := by
  have hempty : Layout.empty.ClassFree := ⟨nofun, nofun⟩
  unfold Env.inherited
  split
  · exact hempty
  · split
    · exact hempty
    · rename_i s _ _ _ _
      cases hl : env.layouts.lookup s with
      | none => exact hempty
      | some l => exact h s l hl

theorem Env.ClassFree.afterClass (h : env.ClassFree) (hc : c.ClassFree) : (env.afterClass c).ClassFree := by
  intro d l hl
  by_cases hd : d = c.id
  · subst hd
    obtain rfl : (env.members c).layout = l := Option.some.inj (List.lookup_cons_self.symm.trans hl)
    exact ((h.inherited c).addFields hc.1).addMethods hc.2
  · exact h d l ((lookup_cons_of_ne hd _ _).symm.trans hl)

/-- **There are no class types in the layouts.** -/
theorem Env.ClassFree.afterClasses : ∀ {cs : List Class} {env : Env}, env.ClassFree → (∀ c ∈ cs, c.ClassFree) →
    (cs.foldl Env.afterClass env).ClassFree
  | [], _, h, _ => h
  | _ :: _, _, h, hcs =>
    have hcs := List.forall_mem_cons.1 hcs
    (h.afterClass hcs.1).afterClasses hcs.2

/-! ## The hierarchy -/

theorem Env.Neat.superEntry_isSome (h : env.Neat) (hn : c.superErrors env = []) {s : Ident} (hs : c.super = some s) :
    (env.superEntry c).isSome := by
  unfold Class.superErrors at hn
  rw [hs] at hn
  dsimp only at hn
  split at hn
  · rename_i ht
    rw [Env.superEntry, hs, Option.bind_some, Env.instantiable, if_pos ht]
    exact h.tables s ht
  · cases hn

theorem Env.Neat.superOf_afterClass (h : env.Neat) (hn : c.nameErrors env = []) {d s : Ident} :
    (env.afterClass c).hierarchy.superOf d = some s ↔
      c.id = d ∧ c.super = some s ∨ env.hierarchy.superOf d = some s := by
  obtain ⟨hsuper, hr, -⟩ := Class.nameErrors_eq_nil hn
  show (env.hierarchyAfter c).superOf d = some s ↔ _
  rw [Env.superOf_hierarchyAfter hr]
  by_cases hd : d = c.id
  · have hnone : env.hierarchy.superOf d = none := by
      refine Option.eq_none_iff_forall_ne_some.2 fun s hs => ?_
      exact Env.ne_of_redeclared hr (h.supers d (Option.isSome_iff_exists.2 ⟨s, hs⟩)) hd
    rw [hnone]
    cases hcs : c.super with
    | none => simp
    | some s' => simp [hd, h.superEntry_isSome hsuper hcs]
  · simp [hd, Ne.symm hd]

theorem Env.Neat.superOf_afterClasses : ∀ {cs : List Class} {env : Env}, env.Neat → classesNameErrors env cs = [] →
    ∀ {d s : Ident}, (cs.foldl Env.afterClass env).hierarchy.superOf d = some s ↔
      (∃ c ∈ cs, c.id = d ∧ c.super = some s) ∨ env.hierarchy.superOf d = some s
  | [], _, _, _, _, _ => by simp
  | c :: cs, env, h, hn, d, s => by
    obtain ⟨hc, hcs⟩ := List.append_eq_nil_iff.1 hn
    obtain ⟨-, hr, -⟩ := Class.nameErrors_eq_nil hc
    rw [List.foldl_cons, superOf_afterClasses (h.afterClass hr) hcs, h.superOf_afterClass hc, List.exists_mem_cons_iff]
    exact or_left_comm.trans or_assoc.symm

end

/-- A class of the program is written as an extension of another one. -/
def Program.Extending (p : Program) (c d : Ident) : Prop := ∃ k ∈ p.classes, k.id = c ∧ k.super = some d

section

variable {p : Program} {c d : Ident}

theorem Program.superOf_iff (hn : classesNameErrors p.initialEnv p.classes = []) :
    p.classTable.hierarchy.superOf c = some d ↔ p.Extending c d := by
  rw [p.classTable_eq]
  exact ((Env.neat_initial _).superOf_afterClasses hn).trans (or_iff_left nofun)

/-- References are below each other exactly if the classes extend each other in any number of steps. -/
theorem Program.isSubtype_ref_iff (hn : classesNameErrors p.initialEnv p.classes = []) :
    p.classTable.hierarchy.isSubtype (.ref c) (.ref d) = true ↔ Relation.ReflTransGen p.Extending c d := by
  rw [Hierarchy.isSubtype_ref, Hierarchy.Below]
  have hstep : (fun c d => p.classTable.hierarchy.superOf c = some d) = p.Extending := by
    funext c d
    exact propext (Program.superOf_iff hn)
  rw [hstep]

end

/-! ## Members -/

/-- What a class has, by its layout and its virtual table, beside what another one has: no fewer members, those of the
other one at the same positions and offsets, with types below theirs. -/
structure HasMembers (h : Hierarchy) (l : Layout) (T : Scope) (l' : Layout) (T' : Scope) : Prop where
  fields_le : l'.fields.length ≤ l.fields.length
  methods_le : l'.methods.length ≤ l.methods.length
  field : ∀ (i : Nat) (t' : Ty), l'.fields[i]? = some t' → ∃ t, l.fields[i]? = some t ∧ h.isSubtype t t' = true
  method : ∀ (j : Nat) (sig' : Signature), l'.methods[j]? = some sig' → ∃ sig, l.methods[j]? = some sig ∧
    h.isSubsignature sig sig' = true ∧ sig.params.length = sig'.params.length
  offset : ∀ (x : Ident) (e' : Entry), T'.lookup x = some e' → ∃ e, T.lookup x = some e ∧ e.offset = e'.offset

/-- A name listed at the same position has an entry of the same offset. -/
theorem Keeps.same_offset {α : Type} {entry : Nat → α → Entry}
    (hoff : ∀ i t t', (entry i t).offset = (entry i t').offset)
    {names names' : List Ident} {types types' : List α} {T T' : Scope}
    (hk : Keeps entry names types T) (hk' : Keeps entry names' types' T') (hp : names' <+: names) {x : Ident}
    (hx : x ∈ names') : ∃ e e', T.lookup x = some e ∧ T'.lookup x = some e' ∧ e.offset = e'.offset := by
  obtain ⟨i, t', hi, -, he'⟩ := hk'.exists_entry hx
  have hi := Host.getElem?_of_isPrefix hp hi
  have hlt : i < types.length := hk.length ▸ (List.getElem?_eq_some_iff.1 hi).1
  exact ⟨_, _, hk.listed i x _ hi (List.getElem?_eq_getElem hlt), he', hoff i _ _⟩

section

variable {h : Hierarchy} {l l' : Layout} {T T' : Scope}

theorem Extends.hasMembers {fields fields' methods methods' : List Ident}
    (hext : Extends h fields' methods' l' fields methods l) (hfree : l'.ClassFree)
    (ht : Members.Tidy fields methods ⟨T, l, []⟩) (ht' : Members.Tidy fields' methods' ⟨T', l', []⟩) :
    HasMembers h l T l' T' where
  fields_le := by
    have hlen : fields.length = l.fields.length := ht.ofFields.length
    have hlen' : fields'.length = l'.fields.length := ht'.ofFields.length
    rw [← hlen, ← hlen']
    exact hext.fieldNames.length_le
  methods_le := by
    have hlen : methods.length = l.methods.length := ht.ofMethods.length
    have hlen' : methods'.length = l'.methods.length := ht'.ofMethods.length
    rw [← hlen, ← hlen']
    exact hext.methodNames.length_le
  field i t' hi := by
    obtain ⟨t, ht, hfits⟩ := hext.field i t' hi
    exact ⟨t, ht, hfits.below (hfree.1 t' (List.mem_of_getElem? hi))⟩
  method j sig' hj := by
    obtain ⟨sig, hsig, hfits⟩ := hext.method j sig' hj
    have hbelow := hfits.below (hfree.2 sig' (List.mem_of_getElem? hj))
    exact ⟨sig, hsig, hbelow, Hierarchy.isSubsignature_arity hbelow⟩
  offset x e' he' := by
    have hsame : ∃ e e', T.lookup x = some e ∧ T'.lookup x = some e' ∧ e.offset = e'.offset := by
      rcases ht'.only x e' he' with hx | hx
      · exact ht.ofFields.same_offset (fun _ _ _ => rfl) ht'.ofFields hext.fieldNames hx
      · exact ht.ofMethods.same_offset (fun _ _ _ => rfl) ht'.ofMethods hext.methodNames hx
    obtain ⟨e, e₁, he, he₁, hoff⟩ := hsame
    obtain rfl : e₁ = e' := Option.some.inj (he₁.symm.trans he')
    exact ⟨e, he, hoff⟩

end

/-! ## Programs -/

theorem Env.after_tables (env : Env) (d : Dec) : (env.after d).tables = env.tables := by
  cases d <;> exact insert_tables _ _ _

theorem Env.afterAll_tables (ds : List Dec) : ∀ env : Env, (env.afterAll ds).tables = env.tables := by
  induction ds with
  | nil => exact fun _ => rfl
  | cons d ds ih => exact fun env => (ih _).trans (env.after_tables d)

theorem implemented_trivial {env : Env} : ∀ (ms : List Method) (f : Nat), Implemented (fun _ _ => True) env f ms
  | [], _ => trivial
  | _ :: ms, _ => ⟨trivial, implemented_trivial ms _⟩

theorem allImplemented_trivial : ∀ (cs : List Class) (env : Env) (f : Nat), AllImplemented (fun _ _ _ => True) env f cs
  | [], _, _ => trivial
  | c :: cs, _, _ => ⟨implemented_trivial c.methods _, allImplemented_trivial cs _ _⟩

theorem Env.Neat.isSome_globals {c : Ident} {cs : List Class} {env : Env} (h : env.Neat)
    (hn : classesNameErrors env cs = []) (hc : c ∈ cs.map Class.id) :
    ((cs.foldl Env.afterClass env).globals.lookup c).isSome := by
  induction cs generalizing env with
  | nil => cases hc
  | cons k cs ih =>
    obtain ⟨hk, hcs⟩ := List.append_eq_nil_iff.1 hn
    obtain ⟨-, hr, -⟩ := Class.nameErrors_eq_nil hk
    have hneat := h.afterClass hr
    rcases List.mem_cons.1 hc with rfl | hc
    · have hk : (env.afterClass k).globals.lookup k.id = some ⟨0, .cls (env.members k).layout, env.next⟩ := by
        rw [h.globals_afterClass k, List.lookup_cons_self]
      exact Option.isSome_iff_exists.2 ⟨_, (hneat.afterClasses cs hcs).2.globals _ _ hk⟩
    · exact ih hneat hcs hc

/-- **A subclass has what its superclasses have.**  Among the classes of a program without errors, references are below
each other exactly if the classes extend each other in any number of steps; then the members of the one above are
members of the one below, at the same positions and offsets and with types below theirs. -/
theorem subclass_has_members {source : List Char} {p : Program} (hp : parse source = .ok p)
    (hb : Text.byteLength source ≤ maxInt32) (hd : p.diagnostics = []) :
    ∀ c ∈ p.classes.map Class.id, ∀ d ∈ p.classes.map Class.id,
      (p.classTable.hierarchy.isSubtype (.ref c) (.ref d) = true ↔ Relation.ReflTransGen p.Extending c d) ∧
      (p.classTable.hierarchy.isSubtype (.ref c) (.ref d) = true → ∃ l T l' T',
        p.classTable.layouts.lookup c = some l ∧ p.mainEnv.tables.lookup c = some T ∧
        p.classTable.layouts.lookup d = some l' ∧ p.mainEnv.tables.lookup d = some T' ∧
        HasMembers p.classTable.hierarchy l T l' T') := by
  obtain ⟨hn, -⟩ := List.append_eq_nil_iff.1 (Program.nameErrors_eq_nil hd)
  obtain ⟨hn, -⟩ := List.append_eq_nil_iff.1 hn
  obtain ⟨ts, hsentence⟩ := exists_sentence hp
  have hs := Program.settled hp hb hd (allImplemented_trivial p.classes p.initialEnv 0)
  have hfree : p.classEnv.ClassFree := Env.ClassFree.afterClasses nofun hsentence.classFree
  intro c hc d hd'
  refine ⟨Program.isSubtype_ref_iff hn, fun hsub => ?_⟩
  obtain ⟨e, he⟩ := Option.isSome_iff_exists.1 ((Env.neat_initial _).isSome_globals hn hc)
  obtain ⟨e', he'⟩ := Option.isSome_iff_exists.1 ((Env.neat_initial _).isSome_globals hn hd')
  obtain ⟨T, l, _, -, hT, hl, -, hsettled⟩ := hs.cls c e he
  obtain ⟨T', l', _, -, hT', hl', -, hsettled'⟩ := hs.cls d e' he'
  obtain ⟨l₁, hl₁, hext⟩ := hs.extends_below (fun c s h => by rwa [p.classTable_eq] at h) hl
    (Hierarchy.isSubtype_ref.1 hsub)
  obtain rfl : l₁ = l' := Option.some.inj (hl₁.symm.trans hl')
  refine ⟨l, T, l₁, T', ?_, ?_, ?_, ?_, hext.hasMembers (hfree d l₁ hl') hsettled.tidy hsettled'.tidy⟩
  · rw [p.classTable_eq, hl]
  · rw [Program.mainEnv, Env.afterAll_tables, hT]
  · rw [p.classTable_eq, hl']
  · rw [Program.mainEnv, Env.afterAll_tables, hT']

/-- A source where a field and a method are overridden two steps above the lowest class, one with a class that is
declared later. -/
def overrideSource : List Char :=
  ("let class A (x: int) { fun get: A (b: B) null; } " ++
    "class B extends A (x: bool, y: int) { fun get: B (a: A) null; } " ++
    "class C extends B () { fun more: int () y; } in print(1);").toList

theorem overrideSource_has_members : ∃ p, parse overrideSource = .ok p ∧ p.diagnostics = [] ∧
    p.classTable.hierarchy.isSubtype (.ref ⟨"C".toList⟩) (.ref ⟨"A".toList⟩) = true ∧ ∃ l T l' T',
      p.classTable.layouts.lookup ⟨"C".toList⟩ = some l ∧ p.mainEnv.tables.lookup ⟨"C".toList⟩ = some T ∧
      p.classTable.layouts.lookup ⟨"A".toList⟩ = some l' ∧ p.mainEnv.tables.lookup ⟨"A".toList⟩ = some T' ∧
      HasMembers p.classTable.hierarchy l T l' T' := by
  have hparsed : (parse overrideSource).toOption.any (fun p => decide (p.diagnostics = []) &&
      (p.classTable.hierarchy.isSubtype (.ref ⟨"C".toList⟩) (.ref ⟨"A".toList⟩) &&
        decide ((p.classes.map Class.id) = [⟨"A".toList⟩, ⟨"B".toList⟩, ⟨"C".toList⟩]))) = true := by decide +kernel
  cases hp : parse overrideSource with
  | error e =>
    rw [hp] at hparsed
    cases hparsed
  | ok p =>
    rw [hp] at hparsed
    simp only [Except.toOption, Option.any_some, Bool.and_eq_true, decide_eq_true_eq] at hparsed
    obtain ⟨hd, hsub, hids⟩ := hparsed
    have hmem := subclass_has_members hp (by decide +kernel) hd
    rw [hids] at hmem
    exact ⟨p, rfl, hd, hsub, (hmem ⟨"C".toList⟩ (by simp) ⟨"A".toList⟩ (by simp)).2 hsub⟩

end FoolLang
