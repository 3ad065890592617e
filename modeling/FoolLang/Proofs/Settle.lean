import FoolLang.Proofs.Drafts
import FoolLang.Proofs.Frames
import FoolLang.Proofs.Inherit
/-!
# Settle — what is known once the classes are declared

Class after class is declared, each of them after its superclass; nothing that is known of one changes when later ones
follow (`Env.Within`).  What is settled about the classes so far (`Settled`) is kept by one more class that has no
errors (`Settled.afterClass`): its members are those that the evaluator finds, its dispatch table has their routines,
and it has what its superclass has.
-/
namespace FoolLang

open Text (maxInt32)

namespace Env

/-- What one point of a program knows of the classes, another one knows too. -/
structure Within (env env' : Env) : Prop where
  tables : ∀ c T, env.tables.lookup c = some T → env'.tables.lookup c = some T
  layouts : ∀ c l, env.layouts.lookup c = some l → env'.layouts.lookup c = some l
  globals : ∀ c e, env.globals.lookup c = some e → env'.globals.lookup c = some e
  supers : ∀ c d, env.hierarchy.superOf c = some d → env'.hierarchy.superOf c = some d

/-- Between two classes there is only the global scope, and what is known is known of the classes in it. -/
structure Neat (env : Env) : Prop where
  level : env.level = 0
  top : ∃ G : Scope, env.scopes = [G] ∧ G.OfClasses
  tables : ∀ c, (env.tables.lookup c).isSome → (env.globals.lookup c).isSome
  layouts : ∀ c, (env.layouts.lookup c).isSome → (env.globals.lookup c).isSome
  supers : ∀ c, (env.hierarchy.superOf c).isSome → (env.globals.lookup c).isSome

variable {env env' env'' : Env} {c : Class} {d : Ident}

theorem Within.refl (env : Env) : env.Within env :=
  ⟨fun _ _ h => h, fun _ _ h => h, fun _ _ h => h, fun _ _ h => h⟩

theorem Within.trans (h : env.Within env') (h' : env'.Within env'') : env.Within env'' :=
  ⟨fun c T hT => h'.tables c T (h.tables c T hT), fun c l hl => h'.layouts c l (h.layouts c l hl),
    fun c e he => h'.globals c e (h.globals c e he), fun c d hd => h'.supers c d (h.supers c d hd)⟩

theorem ne_of_redeclared (hr : env.redeclared c = false) (hd : (env.globals.lookup d).isSome) : d ≠ c.id := by
  rintro rfl
  rw [redeclared, hd] at hr
  cases hr

theorem Neat.scopes_afterClass (h : env.Neat) (c : Class) :
    (env.afterClass c).scopes = [(c.id, ⟨0, .cls (env.members c).layout, env.next⟩) :: env.globals] := by
  obtain ⟨G, hG, -⟩ := h.top
  simp [afterClass, declare, insert, globals, hG, h.level]

theorem Neat.globals_afterClass (h : env.Neat) (c : Class) :
    (env.afterClass c).globals = (c.id, ⟨0, .cls (env.members c).layout, env.next⟩) :: env.globals := by
  rw [globals, h.scopes_afterClass c]
  rfl

theorem superOf_hierarchyAfter (hr : env.redeclared c = false) (d : Ident) : (env.hierarchyAfter c).superOf d =
    if d = c.id ∧ (env.superEntry c).isSome then c.super else env.hierarchy.superOf d := by
  unfold hierarchyAfter
  split
  · rename_i s e hs he
    rw [hr, if_neg Bool.false_ne_true, Hierarchy.superOf_declare, hs, he]
    simp
  · rename_i hne
    cases hs : c.super with
    | none => simp [superEntry, hs]
    | some s =>
      cases he : env.superEntry c with
      | none => simp
      | some e => exact (hne s e hs he).elim

theorem Neat.within_afterClass (h : env.Neat) (hr : env.redeclared c = false) : env.Within (env.afterClass c) where
  tables d T hT := by
    have hd := ne_of_redeclared hr (h.tables d (Option.isSome_iff_exists.2 ⟨T, hT⟩))
    exact (lookup_cons_of_ne hd _ _).trans hT
  layouts d l hl := by
    have hd := ne_of_redeclared hr (h.layouts d (Option.isSome_iff_exists.2 ⟨l, hl⟩))
    exact (lookup_cons_of_ne hd _ _).trans hl
  globals d e he := by
    have hd := ne_of_redeclared hr (Option.isSome_iff_exists.2 ⟨e, he⟩)
    rw [h.globals_afterClass c, lookup_cons_of_ne hd, he]
  supers d s hs := by
    have hd := ne_of_redeclared hr (h.supers d (Option.isSome_iff_exists.2 ⟨s, hs⟩))
    show (env.hierarchyAfter c).superOf d = some s
    rw [superOf_hierarchyAfter hr, if_neg (fun hc => hd hc.1), hs]

theorem Neat.afterClass (h : env.Neat) (hr : env.redeclared c = false) : (env.afterClass c).Neat where
  level := (insert_level _ _ _).trans h.level
  top := by
    refine ⟨_, h.scopes_afterClass c, fun x e he => ?_⟩
    obtain ⟨G, hG, hcls⟩ := h.top
    by_cases hx : x = c.id
    · rw [hx, List.lookup_cons_self] at he
      cases he
      exact ⟨_, rfl⟩
    · rw [lookup_cons_of_ne hx] at he
      refine hcls x e ?_
      rwa [globals, hG] at he
  tables d hd := by
    rw [h.globals_afterClass c]
    by_cases hdc : d = c.id
    · rw [hdc, List.lookup_cons_self]
      rfl
    · rw [lookup_cons_of_ne hdc]
      exact h.tables d ((congrArg Option.isSome (lookup_cons_of_ne hdc _ _)).symm.trans hd)
  layouts d hd := by
    rw [h.globals_afterClass c]
    by_cases hdc : d = c.id
    · rw [hdc, List.lookup_cons_self]
      rfl
    · rw [lookup_cons_of_ne hdc]
      exact h.layouts d ((congrArg Option.isSome (lookup_cons_of_ne hdc _ _)).symm.trans hd)
  supers d hd := by
    rw [h.globals_afterClass c]
    by_cases hdc : d = c.id
    · rw [hdc, List.lookup_cons_self]
      rfl
    · rw [lookup_cons_of_ne hdc]
      refine h.supers d ?_
      have hd' : ((env.hierarchyAfter c).superOf d).isSome := hd
      rwa [superOf_hierarchyAfter hr, if_neg (fun hc => hdc hc.1)] at hd'

end Env

theorem Class.nameErrors_eq_nil {env : Env} {c : Class} (h : c.nameErrors env = []) : c.superErrors env = [] ∧
    env.redeclared c = false ∧ fieldsErrors env (env.inherited c) c.fields = [] ∧
    methodsErrors env (env.withFields c) c.methods = [] ∧
    bodiesErrors (env.inClass c) (env.level + 1) (env.withFields c) c.methods = [] := by
  obtain ⟨h, hb⟩ := List.append_eq_nil_iff.1 h
  obtain ⟨h, hm⟩ := List.append_eq_nil_iff.1 h
  obtain ⟨h, hf⟩ := List.append_eq_nil_iff.1 h
  obtain ⟨hs, hr⟩ := List.append_eq_nil_iff.1 h
  refine ⟨hs, ?_, hf, hm, hb⟩
  split at hr
  · cases hr
  · exact eq_false_of_ne_true ‹_›

/-- **Nothing that is known of the classes changes when more of them are declared.** -/
theorem Env.Neat.afterClasses : ∀ (cs : List Class) {env : Env}, env.Neat → classesNameErrors env cs = [] →
    (cs.foldl Env.afterClass env).Neat ∧ env.Within (cs.foldl Env.afterClass env)
  | [], env, h, _ => ⟨h, .refl env⟩
  | c :: cs, env, h, hn => by
    obtain ⟨hc, hcs⟩ := List.append_eq_nil_iff.1 hn
    obtain ⟨-, hr, -⟩ := Class.nameErrors_eq_nil hc
    obtain ⟨hneat, hw⟩ := afterClasses cs (h.afterClass hr) hcs
    exact ⟨hneat, (h.within_afterClass hr).trans hw⟩

/-! ## Names of members -/

section

variable {cs : List Class} {c : Class} {d : Ident}

theorem fieldNames_of_ne (h : d ≠ c.id) : fieldNames (c :: cs) d = fieldNames cs d := by
  rw [fieldNames, if_neg (Ne.symm h)]

theorem methodNames_of_ne (h : d ≠ c.id) : methodNames (c :: cs) d = methodNames cs d := by
  rw [methodNames, if_neg (Ne.symm h)]

theorem findMethod_of_ne (h : d ≠ c.id) : findMethod (c :: cs) d = findMethod cs d := by
  funext m
  rw [findMethod, if_neg (Ne.symm h)]

theorem findMethod_self (m : Ident) : findMethod (c :: cs) c.id m =
    declaring c.id c.methods (fun x => c.super.bind fun s => findMethod cs s x) m := by
  rw [findMethod, if_pos rfl]
  rfl

theorem length_fieldNames_le : ∀ (cs : List Class) (d : Ident), (fieldNames cs d).length ≤ declaredIn cs
  | [], _ => Nat.le_refl _
  | c :: cs, d => by
    rw [fieldNames, declaredIn, Class.declared]
    split
    · have hsup : (c.super.elim [] (fieldNames cs)).length ≤ declaredIn cs := by
        cases c.super with
        | none => exact Nat.zero_le _
        | some s => exact length_fieldNames_le cs s
      have hadd := length_addNames_le (c.fields.map Field.id) (c.super.elim [] (fieldNames cs))
      rw [List.length_map] at hadd
      omega
    · have := length_fieldNames_le cs d
      omega

theorem length_methodNames_le : ∀ (cs : List Class) (d : Ident), (methodNames cs d).length ≤ declaredIn cs
  | [], _ => Nat.le_refl _
  | c :: cs, d => by
    rw [methodNames, declaredIn, Class.declared]
    split
    · have hsup : (c.super.elim [] (methodNames cs)).length ≤ declaredIn cs := by
        cases c.super with
        | none => exact Nat.zero_le _
        | some s => exact length_methodNames_le cs s
      have hadd := length_addNames_le (c.methods.map Method.id) (c.super.elim [] (methodNames cs))
      rw [List.length_map] at hadd
      omega
    · have := length_methodNames_le cs d
      omega

end

/-! ## Classes -/

def Tables.cells : Tables → Nat
  | [] => 0
  | (_, table) :: slots => table.length + cells slots

/-- What is settled about a class, by its virtual table, its layout and its dispatch table. -/
structure ClassSettled (h : Hierarchy) (I : Ident → Method → Nat → Prop) (cs : List Class) (c : Ident) (T : Scope)
    (l : Layout) (table : List Label) : Prop where
  listed : c ∈ cs.map Class.id
  tidy : Members.Tidy (fieldNames cs c) (methodNames cs c) ⟨T, l, []⟩
  serves : Serves (fun d m f => h.Below c d ∧ I d m f) (findMethod cs c) (methodNames cs c) l.methods table

/-- What is settled about the classes so far, the latest of them first. -/
structure Settled (h : Hierarchy) (I : Ident → Method → Nat → Prop) (cs : List Class) (env : Env) (slots : Tables) :
    Prop where
  neat : env.Neat
  cls : ∀ c e, env.globals.lookup c = some e → ∃ T l table, e.ty = .cls l ∧ env.tables.lookup c = some T ∧
    env.layouts.lookup c = some l ∧ slots.lookup c = some table ∧ ClassSettled h I cs c T l table
  super : ∀ c s, env.hierarchy.superOf c = some s → ∃ l l', env.layouts.lookup s = some l ∧
    env.layouts.lookup c = some l' ∧
      Extends h (fieldNames cs s) (methodNames cs s) l (fieldNames cs c) (methodNames cs c) l'
  cells : slots.cells = methodCells cs

section

variable {h : Hierarchy} {I : Ident → Method → Nat → Prop} {cs : List Class} {env : Env} {slots : Tables} {c : Class}
  {f : Nat}

theorem ClassSettled.later {d : Ident} {T : Scope} {l : Layout} {table : List Label}
    (hd : ClassSettled h I cs d T l table) (hne : d ≠ c.id) : ClassSettled h I (c :: cs) d T l table := by
  refine ⟨List.mem_cons_of_mem _ hd.listed, ?_, ?_⟩
  · rw [fieldNames_of_ne hne, methodNames_of_ne hne]
    exact hd.tidy
  · rw [findMethod_of_ne hne, methodNames_of_ne hne]
    exact hd.serves

theorem Settled.superclass (hs : Settled h I cs env slots) {s : Ident} (hc : c.super = some s)
    (hn : c.superErrors env = []) : ∃ e T l table, env.superEntry c = some e ∧ e.ty = .cls l ∧
      env.inherited c = ⟨T, l, []⟩ ∧ env.layouts.lookup s = some l ∧ c.superTable slots = table ∧
      ClassSettled h I cs s T l table := by
  have ht : (env.tables.lookup s).isSome := by
    unfold Class.superErrors at hn
    rw [hc] at hn
    dsimp only at hn
    split at hn
    · assumption
    · cases hn
  obtain ⟨e, he⟩ := Option.isSome_iff_exists.1 (hs.neat.tables s ht)
  obtain ⟨T, l, table, hty, hT, hl, htable, hsettled⟩ := hs.cls s e he
  refine ⟨e, T, l, table, ?_, hty, ?_, hl, ?_, hsettled⟩
  · rw [Env.superEntry, hc, Option.bind_some, Env.instantiable, if_pos ht, he]
  · simp only [Env.inherited, hc, hT, hl, Option.getD_some]
  · simp only [Class.superTable, hc, htable, Option.getD_some]

/-- **What a class inherits is settled.** -/
theorem Settled.inherited (hs : Settled h I cs env slots) (hn : c.superErrors env = [])
    (hup : ∀ s, c.super = some s → h.superOf c.id = some s) :
    Members.Tidy (c.super.elim [] (fieldNames cs)) (c.super.elim [] (methodNames cs)) (env.inherited c) ∧
    Serves (fun d m f => h.Below c.id d ∧ I d m f) (fun x => c.super.bind fun s => findMethod cs s x)
      (c.super.elim [] (methodNames cs)) (env.inherited c).layout.methods (c.superTable slots) := by
  cases hc : c.super with
  | none =>
    simp only [Env.inherited, Class.superTable, hc]
    exact ⟨.empty, .nil⟩
  | some s =>
    obtain ⟨e, T, l, table, -, -, hinh, -, htable, hsettled⟩ := hs.superclass hc hn
    rw [hinh, htable]
    refine ⟨hsettled.tidy, hsettled.serves.length, fun j m hj => ?_⟩
    obtain ⟨d, m', g, ho, hg, hsig, hbelow, hI⟩ := hsettled.serves.slot j m hj
    exact ⟨d, m', g, ho, hg, hsig, .head (hup s hc) hbelow, hI⟩

/-- A class without errors, where not too many members are declared before. -/
structure Declarable (h : Hierarchy) (cs : List Class) (env : Env) (c : Class) : Prop where
  names : c.nameErrors env = []
  plain : ∀ f ∈ c.fields, f.ty.isMethod = false
  few : declaredIn cs + c.declared ≤ maxInt32
  super : ∀ s, c.super = some s → h.superOf c.id = some s

theorem Declarable.inherits_few (hc : Declarable h cs env c) :
    (c.super.elim [] (fieldNames cs)).length + c.fields.length ≤ maxInt32 ∧
      (c.super.elim [] (methodNames cs)).length + c.methods.length ≤ maxInt32 := by
  have hfew := hc.few
  rw [Class.declared] at hfew
  cases c.super with
  | none =>
    simp only [Option.elim, List.length_nil]
    omega
  | some s =>
    have hf := length_fieldNames_le cs s
    have hm := length_methodNames_le cs s
    simp only [Option.elim]
    omega

theorem Settled.withFields (hs : Settled h I cs env slots) (hc : Declarable h cs env c) :
    env.withFields c = c.fields.foldl (Members.addField 1) (env.inherited c) ∧
    Members.Tidy ((c.fields.map Field.id).foldl addName (c.super.elim [] (fieldNames cs)))
      (c.super.elim [] (methodNames cs)) (env.withFields c) := by
  obtain ⟨hsuper, -, hfs, -⟩ := Class.nameErrors_eq_nil hc.names
  have heq : env.withFields c = c.fields.foldl (Members.addField 1) (env.inherited c) := by
    rw [Env.withFields, hs.neat.level]
  refine ⟨heq, ?_⟩
  rw [heq]
  exact (hs.inherited hsuper hc.super).1.addFields hs.neat.level c.fields hfs hc.plain hc.inherits_few.1

theorem Settled.members_eq (hs : Settled h I cs env slots) (c : Class) :
    env.members c = c.methods.foldl (Members.addMethod 1) (env.withFields c) := by
  rw [Env.members, hs.neat.level]

/-- **The members of a class without errors are settled.** -/
theorem Settled.members (hs : Settled h I cs env slots) (hc : Declarable h cs env c)
    (hI : Implemented (I c.id) (env.inClass c) f c.methods) :
    ClassSettled h I (c :: cs) c.id (env.members c).table (env.members c).layout
      ((c.resolve env).dispatchTable slots f) := by
  obtain ⟨hsuper, -, -, hms, -⟩ := Class.nameErrors_eq_nil hc.names
  obtain ⟨-, hserves⟩ := hs.inherited hsuper hc.super
  obtain ⟨heq, hwith⟩ := hs.withFields hc
  have hlevel := hs.neat.level
  have hall := hwith.addMethods hlevel c.methods hms hc.inherits_few.2
  have hkeep : (env.withFields c).layout.methods = (env.inherited c).layout.methods := by
    rw [heq, Members.addFields_methods]
  rw [← hkeep] at hserves
  have hfill := hserves.addMethods hlevel c.methods hwith hms hc.inherits_few.2
    (hI.imp fun m f hm => ⟨Relation.ReflTransGen.refl, hm⟩)
  rw [← hs.members_eq c] at hall hfill
  have htable : (c.resolve env).dispatchTable slots f =
      fillTable (c.superTable slots) f (resolveMethods (env.inClass c) 1 (env.withFields c) c.methods) := by
    show fillTable _ f (resolveMethods (env.inClass c) (env.level + 1) (env.withFields c) c.methods) = _
    rw [hlevel]
    rfl
  refine ⟨List.mem_cons_self, ?_, ?_⟩
  · rw [fieldNames, methodNames, if_pos rfl, if_pos rfl]
    exact ⟨hall.ofFields, hall.ofMethods, hall.plain, hall.only⟩
  · rw [htable, methodNames, if_pos rfl]
    exact hfill.congr fun x => (findMethod_self x).symm

/-! ## Overriding -/

theorem conflictAt_eq_false {α : Type} {below : α → α → Bool} {own inherited : List α} {i : Nat} {a b : α}
    (hc : conflictAt below own inherited i = false) (ha : own[i]? = some a) (hb : inherited[i]? = some b) :
    below a b = true := by
  unfold conflictAt at hc
  rw [ha, hb] at hc
  simpa using hc

theorem Class.overrideErrors_eq_nil {k : Classes} {own parent : Layout} {level : Nat} {offset : Int}
    (hl : c.layout = some own) (he : c.superEntry = some ⟨level, .cls parent, offset⟩) (ho : c.overrideErrors k = []) :
    (∀ f ∈ c.fields, f.offset < 0 →
      conflictAt k.hierarchy.isSubtype own.fields parent.fields (fieldPosition f.offset) = false) ∧
    ∀ m ∈ c.methods, conflictAt k.hierarchy.isSubsignature own.methods parent.methods m.offset.toNat = false := by
  rw [Class.overrideErrors, hl, he] at ho
  obtain ⟨hf, hm⟩ := List.append_eq_nil_iff.1 ho
  rw [List.map_eq_nil_iff, List.filter_eq_nil_iff] at hf hm
  refine ⟨fun f hmem hneg => ?_, fun m hmem => eq_false_of_ne_true (hm m hmem)⟩
  have := hf f hmem
  rw [decide_eq_true hneg, Bool.true_and] at this
  exact eq_false_of_ne_true this

/-- A field that is declared again fits the inherited one, and the others keep their types. -/
theorem Settled.field_fits (hs : Settled h I cs env slots) (hc : Declarable h cs env c) {parent : Layout} {i : Nat}
    {t : Ty} (hinh : (env.inherited c).layout = parent)
    (hfit : ∀ f ∈ (c.resolve env).fields, f.offset < 0 →
      conflictAt h.isSubtype (env.members c).layout.fields parent.fields (fieldPosition f.offset) = false)
    (ht : parent.fields[i]? = some t) : ∃ t', (env.members c).layout.fields[i]? = some t' ∧ t'.Fits h t := by
  obtain ⟨hsuper, -, hfs, -⟩ := Class.nameErrors_eq_nil hc.names
  obtain ⟨heq, hwith⟩ := hs.withFields hc
  have htidy := (hs.inherited hsuper hc.super).1
  have hfew := hc.inherits_few.1
  have hinherited : (env.inherited c).layout.fields[i]? = some t := by rw [hinh, ht]
  have hmembers : (env.members c).layout.fields = (env.withFields c).layout.fields := by
    rw [hs.members_eq c, Members.addMethods_fields]
  rw [hmembers] at hfit ⊢
  have hi := (List.getElem?_eq_some_iff.1 hinherited).1
  rcases htidy.addFields_keeps hs.neat.level c.fields hfs hc.plain hfew hinherited with ⟨f, hf, hoff⟩ | hsame
  · have hmem : f ∈ (c.resolve env).fields := by
      show f ∈ resolveFields (env.level + 1) _ _
      rwa [hs.neat.level]
    have hlen := htidy.ofFields.length
    have hlen' := hwith.ofFields.length
    have hle := (prefix_addNames (c.fields.map Field.id) (c.super.elim [] (fieldNames cs))).length_le
    have hown := List.getElem?_eq_getElem (l := (env.withFields c).layout.fields) (i := i) (by omega)
    have hconf := hfit f hmem (by rw [hoff]; exact fieldOffset_neg (by omega))
    rw [hoff, fieldPosition_fieldOffset (by omega)] at hconf
    exact ⟨_, hown, .inr (conflictAt_eq_false hconf hown ht)⟩
  · exact ⟨t, by rw [heq, hsame], .inl rfl⟩

/-- A method that is declared again fits the inherited one, and the others keep their signatures. -/
theorem Settled.method_fits (hs : Settled h I cs env slots) (hc : Declarable h cs env c) {parent : Layout} {j : Nat}
    {sig : Signature} (hinh : (env.inherited c).layout = parent)
    (hfit : ∀ m ∈ (c.resolve env).methods,
      conflictAt h.isSubsignature (env.members c).layout.methods parent.methods m.offset.toNat = false)
    (hsig : parent.methods[j]? = some sig) :
    ∃ sig', (env.members c).layout.methods[j]? = some sig' ∧ sig'.Fits h sig := by
  obtain ⟨-, -, -, hms, -⟩ := Class.nameErrors_eq_nil hc.names
  obtain ⟨heq, hwith⟩ := hs.withFields hc
  have hfew := hc.inherits_few.2
  have hinherited : (env.withFields c).layout.methods[j]? = some sig := by
    rw [heq, Members.addFields_methods, hinh, hsig]
  have hj := (List.getElem?_eq_some_iff.1 hinherited).1
  rcases hwith.addMethods_keeps hs.neat.level (env.inClass c) c.methods hms hfew hinherited with ⟨m, hm, hoff⟩ | hsame
  · have hmem : m ∈ (c.resolve env).methods := by
      show m ∈ resolveMethods _ (env.level + 1) _ _
      rwa [hs.neat.level]
    have hall := hwith.addMethods hs.neat.level c.methods hms hfew
    rw [← hs.members_eq c] at hall
    have hlen := hwith.ofMethods.length
    have hlen' := hall.ofMethods.length
    have hle := (prefix_addNames (c.methods.map Method.id) (c.super.elim [] (methodNames cs))).length_le
    have hown := List.getElem?_eq_getElem (l := (env.members c).layout.methods) (i := j) (by omega)
    have hconf := hfit m hmem
    rw [hoff, toNat_methodOffset (by omega)] at hconf
    exact ⟨_, hown, .inr (conflictAt_eq_false hconf hown hsig)⟩
  · exact ⟨sig, by rw [hs.members_eq c, hsame], .inl rfl⟩

/-- **A class has what its superclass has**: what it declares again fits what it overrides. -/
theorem Settled.extends_super (hs : Settled h I cs env slots) (hc : Declarable h cs env c) {k : Classes}
    (hk : k.hierarchy = h) (ho : (c.resolve env).overrideErrors k = []) {s : Ident} (hsc : c.super = some s) :
    ∃ l, env.layouts.lookup s = some l ∧ Extends h (fieldNames cs s) (methodNames cs s) l
      (fieldNames (c :: cs) c.id) (methodNames (c :: cs) c.id) (env.members c).layout := by
  subst hk
  obtain ⟨hsuper, -⟩ := Class.nameErrors_eq_nil hc.names
  obtain ⟨⟨level, ty, offset⟩, T, l, table, hentry, rfl, hinh, hl, -⟩ := hs.superclass hsc hsuper
  obtain ⟨hfit, hmit⟩ := Class.overrideErrors_eq_nil (c := c.resolve env) rfl hentry ho
  have hparent : (env.inherited c).layout = l := by rw [hinh]
  have hfields : fieldNames (c :: cs) c.id = (c.fields.map Field.id).foldl addName (fieldNames cs s) := by
    rw [fieldNames, if_pos rfl, hsc]
    rfl
  have hmethods : methodNames (c :: cs) c.id = (c.methods.map Method.id).foldl addName (methodNames cs s) := by
    rw [methodNames, if_pos rfl, hsc]
    rfl
  refine ⟨l, hl, hfields ▸ prefix_addNames _ _, hmethods ▸ prefix_addNames _ _, fun i t ht => ?_, fun j sig hsig => ?_⟩
  · exact hs.field_fits hc hparent hfit ht
  · exact hs.method_fits hc hparent hmit hsig

/-! ## One more class, and all of them -/

/-- **One more class keeps what is settled.** -/
theorem Settled.afterClass (hs : Settled h I cs env slots) (hc : Declarable h cs env c) {k : Classes}
    (hk : k.hierarchy = h) (ho : (c.resolve env).overrideErrors k = [])
    (hI : Implemented (I c.id) (env.inClass c) f c.methods) :
    Settled h I (c :: cs) (env.afterClass c) ((c.id, (c.resolve env).dispatchTable slots f) :: slots) := by
  obtain ⟨-, hr, -⟩ := Class.nameErrors_eq_nil hc.names
  have hmembers := hs.members hc hI
  -- what has a layout was declared before, so the entries of the new class do not hide its own
  have hknown : ∀ {d l}, env.layouts.lookup d = some l → d ≠ c.id := fun hl =>
    Env.ne_of_redeclared hr (hs.neat.layouts _ (Option.isSome_iff_exists.2 ⟨_, hl⟩))
  refine ⟨hs.neat.afterClass hr, fun d e he => ?_, fun d s hd => ?_, ?_⟩
  · rw [hs.neat.globals_afterClass c] at he
    by_cases hdc : d = c.id
    · subst hdc
      rw [List.lookup_cons_self] at he
      cases he
      exact ⟨_, _, _, rfl, List.lookup_cons_self, List.lookup_cons_self, List.lookup_cons_self, hmembers⟩
    · rw [lookup_cons_of_ne hdc] at he
      obtain ⟨T, l, table, hty, hT, hl, ht, hd⟩ := hs.cls d e he
      exact ⟨T, l, table, hty, (lookup_cons_of_ne hdc _ _).trans hT, (lookup_cons_of_ne hdc _ _).trans hl,
        (lookup_cons_of_ne hdc _ _).trans ht, hd.later hdc⟩
  · have hd' : (env.hierarchyAfter c).superOf d = some s := hd
    rw [Env.superOf_hierarchyAfter hr] at hd'
    split at hd'
    · rename_i hdc
      obtain ⟨rfl, -⟩ := hdc
      obtain ⟨l, hl, hext⟩ := hs.extends_super hc hk ho hd'
      have hsc := hknown hl
      rw [← fieldNames_of_ne hsc, ← methodNames_of_ne hsc] at hext
      exact ⟨l, _, (lookup_cons_of_ne hsc _ _).trans hl, List.lookup_cons_self, hext⟩
    · obtain ⟨l, l', hl, hl', hext⟩ := hs.super d s hd'
      have hsc := hknown hl
      have hdc := hknown hl'
      rw [← fieldNames_of_ne hsc, ← methodNames_of_ne hsc, ← fieldNames_of_ne hdc, ← methodNames_of_ne hdc] at hext
      exact ⟨l, l', (lookup_cons_of_ne hsc _ _).trans hl, (lookup_cons_of_ne hdc _ _).trans hl', hext⟩
  · rw [Tables.cells, methodCells, hmembers.serves.length, hs.cells]

end

theorem Env.neat_initial (names : List Ident) : (Env.initial names).Neat :=
  ⟨rfl, ⟨[], rfl, fun _ _ he => nomatch he⟩, (fun _ hc => nomatch hc), (fun _ hc => nomatch hc),
    (fun _ hc => nomatch hc)⟩

theorem settled_initial (h : Hierarchy) (I : Ident → Method → Nat → Prop) (names : List Ident) :
    Settled h I [] (.initial names) [] where
  neat := Env.neat_initial names
  cls c e he := by
    have he' : List.lookup c ([] : Scope) = some e := he
    cases he'
  super _ _ hs := nomatch hs
  cells := rfl

def Tables.after (slots : Tables) (f : Nat) : List Class → Tables
  | [] => slots
  | c :: cs => after ((c.id, c.dispatchTable slots f) :: slots) (f + c.routines) cs

/-- The methods of the classes have these routines, the first of them number `f`. -/
def AllImplemented (I : Ident → Method → Nat → Prop) : Env → Nat → List Class → Prop
  | _, _, [] => True
  | env, f, c :: cs => Implemented (I c.id) (env.inClass c) f c.methods ∧
    AllImplemented I (env.afterClass c) (f + (c.resolve env).routines) cs

/-- **What is settled once all classes are declared.** -/
theorem Settled.afterClasses {h : Hierarchy} {I : Ident → Method → Nat → Prop} {k : Classes} (hk : k.hierarchy = h)
    (later : List Class) : ∀ {cs : List Class} {env : Env} {slots : Tables} {f : Nat}, Settled h I cs env slots →
    classesNameErrors env later = [] → (∀ c ∈ resolveClasses env later, c.overrideErrors k = []) →
    Plain (fieldTypes later) → declaredIn cs + declaredIn later ≤ maxInt32 →
    (∀ d s, (later.foldl Env.afterClass env).hierarchy.superOf d = some s → h.superOf d = some s) →
    AllImplemented I env f later →
    Settled h I (later.reverse ++ cs) (later.foldl Env.afterClass env) (slots.after f (resolveClasses env later)) := by
  induction later with
  | nil => exact fun hs _ _ _ _ _ _ => hs
  | cons c later ih =>
    intro cs env slots f hs hn ho hp hb hh hI
    obtain ⟨hc, hcs⟩ := List.append_eq_nil_iff.1 hn
    obtain ⟨hoc, hos⟩ := List.forall_mem_cons.1 ho
    obtain ⟨hsuper, hr, -⟩ := Class.nameErrors_eq_nil hc
    have hpc : ∀ f ∈ c.fields, f.ty.isMethod = false := fun f hf =>
      hp _ (List.mem_append_left _ (List.mem_map_of_mem hf))
    rw [declaredIn] at hb
    have hdec : Declarable h cs env c := by
      refine ⟨hc, hpc, by omega, fun s hsc => ?_⟩
      obtain ⟨e, -, -, -, he, -⟩ := hs.superclass hsc hsuper
      refine hh _ _ (((hs.neat.afterClass hr).afterClasses later hcs).2.supers _ _ ?_)
      show (env.hierarchyAfter c).superOf c.id = some s
      rw [Env.superOf_hierarchyAfter hr, if_pos ⟨rfl, by rw [he]; rfl⟩, hsc]
    have hall := ih (hs.afterClass hdec hk hoc hI.1) hcs hos (fun t ht => hp t (List.mem_append_right _ ht))
      (by rw [declaredIn]; omega) hh hI.2
    rwa [List.reverse_cons, List.append_assoc]

theorem Settled.extends_below {h : Hierarchy} {I : Ident → Method → Nat → Prop} {cs : List Class} {env : Env}
    {slots : Tables} (hs : Settled h I cs env slots)
    (hh : ∀ c s, h.superOf c = some s → env.hierarchy.superOf c = some s) {c d : Ident} {l : Layout}
    (hl : env.layouts.lookup d = some l) (hb : h.Below d c) : ∃ l', env.layouts.lookup c = some l' ∧
      Extends h (fieldNames cs c) (methodNames cs c) l' (fieldNames cs d) (methodNames cs d) l := by
  induction hb with
  | refl => exact ⟨l, hl, .refl _ _ _ _⟩
  | tail _ hstep ih =>
    obtain ⟨l₁, hl₁, hext⟩ := ih
    obtain ⟨l₂, l₁', hl₂, hl₁', hext'⟩ := hs.super _ _ (hh _ _ hstep)
    obtain rfl : l₁' = l₁ := Option.some.inj (hl₁'.symm.trans hl₁)
    exact ⟨l₂, hl₂, hext'.trans hext⟩

end FoolLang
