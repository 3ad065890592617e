import FoolLang.Proofs.Binders
import FoolLang.Proofs.Scoping
import FoolLang.Proofs.Subclasses
import FoolLang.Proofs.Visits
/-!
# VirtualTables — the virtual table of a class and its layout name the same members

Both are carried along by hand: copied from the superclass, extended or overwritten by each member, left alone by a
member that is refused, and replaced when a class is declared again while its subclasses keep what they had.  At every
step of the pass, and whatever is wrong with the program, the entries of each virtual table and the positions of the
layout beside it are paired off (`Scope.Matches`).  So no step of the pass leaves the layout it writes to, or the range
of the numbers it counts with (`Visit.Defined`).
-/
namespace FoolLang

open Assembly (FitsWord)
open Text (maxInt32)

/-- The fields of a virtual table have the offsets and types of the positions of the layout, the methods too, and each
position belongs to one name. -/
structure Scope.Matches (T : Scope) (l : Layout) : Prop where
  field : ∀ x e, T.lookup x = some e → e.ty.isMethod = false →
    ∃ i < l.fields.length, e.offset = -(i : Int) - 1 ∧ l.fields[i]? = some e.ty
  method : ∀ x e, T.lookup x = some e → e.ty.isMethod = true →
    ∃ j < l.methods.length, e.offset = (j : Int) ∧ ∃ sig, l.methods[j]? = some sig ∧ e.ty = .method sig
  fieldAt : ∀ i < l.fields.length, ∃! x, ∃ e, T.lookup x = some e ∧ e.ty.isMethod = false ∧ e.offset = -(i : Int) - 1
  methodAt : ∀ j < l.methods.length, ∃! x, ∃ e, T.lookup x = some e ∧ e.ty.isMethod = true ∧ e.offset = (j : Int)

/-- The classes that are known have a virtual table and a layout each, and the two match. -/
structure Env.Matching (env : Env) : Prop where
  known : ∀ c, (env.tables.lookup c).isSome ↔ (env.layouts.lookup c).isSome
  agree : ∀ c T l, env.tables.lookup c = some T → env.layouts.lookup c = some l → T.Matches l

/-- A field can be added: the layout has the position it overrides, and positions can be counted. -/
def Members.TakesField (s : Members) (f : Field) : Prop :=
  s.layout.fields.length ≤ maxInt32 ∧ ∀ e, s.table.lookup f.id = some e → e.ty.isMethod = false →
    ∃ i < s.layout.fields.length, e.offset = -(i : Int) - 1

/-- A method can be added: the layout has the position it overrides, and positions can be counted. -/
def Members.TakesMethod (s : Members) (m : Method) : Prop :=
  s.layout.methods.length ≤ maxInt32 ∧ ∀ e, s.table.lookup m.id = some e → e.ty.isMethod = true →
    ∃ j < s.layout.methods.length, e.offset = (j : Int)

/-- Whether a step can be taken: a scope is open, the next offset can be counted down and the level up, the offsets of
parameters can be counted up to two past the last, and a member that overrides another one finds its position. -/
def Visit.Defined (v : Visit) : Prop :=
  v.env.scopes ≠ [] ∧
  match v with
  | node _ _ => True
  | dec env _ => FitsWord (env.next - 1) ∧ env.level + 1 ≤ maxInt32
  | param _ offset _ => FitsWord (offset + 2)
  | cls env _ => FitsWord (env.next - 1) ∧ env.level + 2 ≤ maxInt32
  | field _ s f => s.TakesField f
  | method _ s m => s.TakesMethod m

/-! ## Members -/

theorem fieldOffset_eq {i : Nat} (h : i ≤ maxInt32) : fieldOffset i = -(i : Int) - 1 :=
  wrapOffset_of_fits ⟨by omega, by omega⟩

theorem methodOffset_eq {j : Nat} (h : j ≤ maxInt32) : methodOffset j = (j : Int) :=
  wrapOffset_of_fits (Assembly.fitsWord_ofNat h)

namespace Members

variable {fields methods : List Ident} {s s' : Members} {k : Nat}

theorem Tidy.of_eq (h : Tidy fields methods s) (ht : s'.table = s.table) (hl : s'.layout = s.layout) :
    Tidy fields methods s' := by
  obtain ⟨hf, hm, hp, ho⟩ := h
  rw [← ht, ← hl] at hf hm
  rw [← hl] at hp
  rw [← ht] at ho
  exact ⟨hf, hm, hp, ho⟩

/-- The entry of a field belongs to the position of its name. -/
theorem Tidy.fieldEntry (h : Tidy fields methods s) (hb : fields.length ≤ maxInt32) {x : Ident} {e : Entry}
    (he : s.table.lookup x = some e) (hty : e.ty.isMethod = false) : ∃ i < s.layout.fields.length,
      e.offset = -(i : Int) - 1 ∧ s.layout.fields[i]? = some e.ty ∧ fields[i]? = some x := by
  have hlen := h.ofFields.length
  obtain ⟨-, i, t, hi, ht, rfl⟩ := h.of_field he hty
  have hlt := (List.getElem?_eq_some_iff.1 ht).1
  exact ⟨i, hlt, fieldOffset_eq (by omega), ht, hi⟩

theorem Tidy.methodEntry (h : Tidy fields methods s) (hb : methods.length ≤ maxInt32) {x : Ident} {e : Entry}
    (he : s.table.lookup x = some e) (hty : e.ty.isMethod = true) : ∃ j < s.layout.methods.length,
      e.offset = (j : Int) ∧ (∃ sig, s.layout.methods[j]? = some sig ∧ e.ty = .method sig) ∧ methods[j]? = some x := by
  have hlen := h.ofMethods.length
  obtain ⟨-, j, sig, hj, hsig, rfl⟩ := h.of_method he hty
  have hlt := (List.getElem?_eq_some_iff.1 hsig).1
  exact ⟨j, hlt, methodOffset_eq (by omega), ⟨sig, hsig, rfl⟩, hj⟩

/-- Names side by side with the positions of a layout pair its virtual table with it. -/
theorem Tidy.matching (h : Tidy fields methods s) (hf : fields.length ≤ maxInt32) (hm : methods.length ≤ maxInt32) :
    s.table.Matches s.layout := by
  have hfields := h.ofFields.length
  have hmethods := h.ofMethods.length
  refine ⟨fun x e he hty => ?_, fun x e he hty => ?_, fun i hi => ?_, fun j hj => ?_⟩
  · obtain ⟨i, hlt, hoff, ht, -⟩ := h.fieldEntry hf he hty
    exact ⟨i, hlt, hoff, ht⟩
  · obtain ⟨j, hlt, hoff, hsig, -⟩ := h.methodEntry hm he hty
    exact ⟨j, hlt, hoff, hsig⟩
  · have hx := List.getElem?_eq_getElem (hfields ▸ hi : i < fields.length)
    have ht := List.getElem?_eq_getElem hi
    refine ⟨fields[i], ⟨_, h.ofFields.listed i _ _ hx ht, h.plain _ (List.mem_of_getElem? ht),
      fieldOffset_eq (by omega)⟩, ?_⟩
    rintro y ⟨e, he, hty, hoff⟩
    obtain ⟨i', -, hoff', -, hi'⟩ := h.fieldEntry hf he hty
    obtain rfl : i' = i := by omega
    exact Option.some.inj (hi'.symm.trans hx)
  · have hx := List.getElem?_eq_getElem (hmethods ▸ hj : j < methods.length)
    have hsig := List.getElem?_eq_getElem hj
    refine ⟨methods[j], ⟨_, h.ofMethods.listed j _ _ hx hsig, rfl, methodOffset_eq (by omega)⟩, ?_⟩
    rintro y ⟨e, he, hty, hoff⟩
    obtain ⟨j', -, hoff', -, hj'⟩ := h.methodEntry hm he hty
    obtain rfl : j' = j := by omega
    exact Option.some.inj (hj'.symm.trans hx)

theorem Tidy.takesField (h : Tidy fields methods s) (hb : fields.length ≤ maxInt32) (f : Field) : s.TakesField f := by
  refine ⟨h.ofFields.length ▸ hb, fun e he hty => ?_⟩
  obtain ⟨i, hlt, hoff, -⟩ := h.fieldEntry hb he hty
  exact ⟨i, hlt, hoff⟩

theorem Tidy.takesMethod (h : Tidy fields methods s) (hb : methods.length ≤ maxInt32) (m : Method) :
    s.TakesMethod m := by
  refine ⟨h.ofMethods.length ▸ hb, fun e he hty => ?_⟩
  obtain ⟨j, hlt, hoff, -⟩ := h.methodEntry hb he hty
  exact ⟨j, hlt, hoff⟩

/-- The members are named by some names, `k` at most. -/
def TidyUpTo (k : Nat) (s : Members) : Prop :=
  ∃ fields methods, Tidy fields methods s ∧ fields.length + methods.length ≤ k

theorem TidyUpTo.mono {k' : Nat} (h : TidyUpTo k s) (hk : k ≤ k') : TidyUpTo k' s := by
  obtain ⟨fields, methods, ht, hle⟩ := h
  exact ⟨fields, methods, ht, Nat.le_trans hle hk⟩

/-- One more field, refused or not. -/
theorem TidyUpTo.addField (h : TidyUpTo k s) {f : Field} (hf : f.ty.isMethod = false) (hb : k ≤ maxInt32) :
    TidyUpTo (k + 1) (s.addField 1 f) := by
  obtain ⟨fields, methods, ht, hle⟩ := h
  cases hoff : s.fieldSlot f.id with
  | ok off =>
    have hadd := length_addName_le fields f.id
    exact ⟨_, methods, ht.addField hoff hf (by omega), by omega⟩
  | error r =>
    refine ⟨fields, methods, ht.of_eq ?_ ?_, by omega⟩ <;> rw [Members.addField, hoff]

/-- One more method, refused or not. -/
theorem TidyUpTo.addMethod (h : TidyUpTo k s) (m : Method) (hb : k ≤ maxInt32) :
    TidyUpTo (k + 1) (s.addMethod 1 m) := by
  obtain ⟨fields, methods, ht, hle⟩ := h
  cases hoff : s.methodSlot m.id with
  | ok off =>
    have hadd := length_addName_le methods m.id
    exact ⟨fields, _, ht.addMethod hoff (by omega), by omega⟩
  | error r =>
    refine ⟨fields, methods, ht.of_eq ?_ ?_, by omega⟩ <;> rw [Members.addMethod, hoff]

theorem TidyUpTo.addFields : ∀ (fs : List Field) {s : Members} {k : Nat}, TidyUpTo k s →
    (∀ f ∈ fs, f.ty.isMethod = false) → k + fs.length ≤ maxInt32 →
    TidyUpTo (k + fs.length) (fs.foldl (Members.addField 1) s)
  | [], _, _, h, _, _ => h
  | f :: fs, s, k, h, hp, hb => by
    obtain ⟨hf, hfs⟩ := List.forall_mem_cons.1 hp
    rw [List.length_cons] at hb ⊢
    have ih := addFields fs (h.addField hf (by omega)) hfs (by omega)
    exact ih.mono (by omega)

theorem TidyUpTo.addMethods : ∀ (ms : List Method) {s : Members} {k : Nat}, TidyUpTo k s →
    k + ms.length ≤ maxInt32 → TidyUpTo (k + ms.length) (ms.foldl (Members.addMethod 1) s)
  | [], _, _, h, _ => h
  | m :: ms, s, k, h, hb => by
    rw [List.length_cons] at hb ⊢
    have ih := addMethods ms (h.addMethod m (by omega)) (by omega)
    exact ih.mono (by omega)

end Members

/-! ## Room for names -/

/-- A scope is open, and this many declarations and routines can be entered before offsets or levels leave their
range. -/
structure Env.Roomy (n : Nat) (env : Env) : Prop where
  opened : env.scopes ≠ []
  low : env.next ≤ -2
  room : -2 - env.next + env.level + n + 4 ≤ (maxInt32 : Int)

theorem one_le_binders (d : Dec) : 1 ≤ d.binders := by
  cases d with
  | var => exact Nat.le_refl _
  | func =>
    rw [Dec.binders]
    omega

namespace Env

variable {env : Env} {n k : Nat}

theorem Roomy.mono (h : env.Roomy n) (hk : k ≤ n) : env.Roomy k :=
  ⟨h.opened, h.low, by have := h.room; omega⟩

theorem Roomy.fitsWord (h : env.Roomy n) : FitsWord (env.next - 1) := by
  have hlow := h.low
  have hroom := h.room
  constructor <;> omega

theorem Roomy.insert (h : env.Roomy n) (x : Ident) (e : Entry) : (env.insert x e).Roomy n := by
  refine ⟨insert_isOpen h.opened x e, ?_, ?_⟩
  · rw [insert_next]
    exact h.low
  · rw [insert_next, insert_level]
    exact h.room

theorem Roomy.declare (h : env.Roomy (n + 1)) (x : Ident) (ty : Ty) : (env.declare x ty).Roomy n := by
  have hlow := h.low
  have hroom := h.room
  have hnext : (env.declare x ty).next = env.next - 1 := wrapOffset_of_fits h.fitsWord
  have hlevel : (env.declare x ty).level = env.level := insert_level _ _ _
  refine ⟨insert_isOpen h.opened x _, ?_, ?_⟩
  · rw [hnext]
    omega
  · rw [hnext, hlevel]
    omega

theorem Roomy.enter (h : env.Roomy (n + 1)) : env.enter.Roomy n := by
  have hlow := h.low
  have hroom := h.room
  refine ⟨List.cons_ne_nil _ _, Int.le_refl _, ?_⟩
  show -2 - (-2 : Int) + ((env.level + 1 : Nat) : Int) + n + 4 ≤ maxInt32
  omega

theorem Roomy.bindParams : ∀ (ps : List Param) {env : Env} {offset : Int}, env.Roomy n →
    (env.bindParams offset ps).Roomy n
  | [], _, _, h => h
  | _ :: ps, _, _, h => bindParams ps (h.insert _ _)

theorem Roomy.inRoutine (h : env.Roomy (n + 1)) (ps : List Param) : (env.inRoutine ps).Roomy n := h.enter.bindParams ps

theorem Roomy.after {d : Dec} (h : env.Roomy (2 * d.binders + n)) : (env.after d).Roomy n := by
  have hd : env.Roomy (n + 1) := h.mono <| by
    have := one_le_binders d
    omega
  cases d <;> exact hd.declare _ _

theorem Roomy.afterAll : ∀ (ds : List Dec) {env : Env}, env.Roomy (2 * localBinders ds + n) → (env.afterAll ds).Roomy n
  | [], _, h => h.mono (by omega)
  | d :: ds, env, h => by
    rw [localBinders, Nat.mul_add, Nat.add_assoc] at h
    exact afterAll ds h.after

end Env

/-! ## Routines -/

/-- A step that can be taken, where the classes that are known are those that `env` knows. -/
structure Visit.SoundAt (env : Env) (v : Visit) : Prop where
  defined : v.Defined
  tables : v.env.tables = env.tables
  layouts : v.env.layouts = env.layouts

theorem Visit.SoundAt.of_eq {env env' : Env} {v : Visit} (h : v.SoundAt env') (ht : env'.tables = env.tables)
    (hl : env'.layouts = env.layouts) : v.SoundAt env := ⟨h.defined, h.tables.trans ht, h.layouts.trans hl⟩

section

variable {env : Env} {n : Nat}

theorem Expr.visits_sound (h : env.scopes ≠ []) (e : Expr) : ∀ v ∈ e.visits env, v.SoundAt env := by
  intro v hv
  obtain ⟨x, -, rfl⟩ := List.mem_map.1 hv
  exact ⟨⟨h, trivial⟩, rfl, rfl⟩

theorem paramVisits_sound : ∀ (ps : List Param) {env : Env} {offset : Int}, env.scopes ≠ [] → 1 ≤ offset →
    offset + ps.length + 1 ≤ maxInt32 → ∀ v ∈ paramVisits offset env ps, v.SoundAt env
  | [], _, _, _, _, _, _, hv => nomatch hv
  | p :: ps, env, offset, h, h₁, hb, v, hv => by
    rw [List.length_cons] at hb
    rcases List.mem_cons.1 hv with rfl | hv
    · exact ⟨⟨h, by constructor <;> omega⟩, rfl, rfl⟩
    · have hnext : wrapOffset (offset + 1) = offset + 1 := wrapOffset_of_fits (by constructor <;> omega)
      rw [hnext] at hv
      have hps := paramVisits_sound ps (Env.insert_isOpen h p.id ⟨env.level, p.ty, offset⟩) (by omega) (by omega) v hv
      exact hps.of_eq (Env.insert_tables _ _ _) (Env.insert_layouts _ _ _)

theorem bindParams_layouts : ∀ (ps : List Param) (offset : Int) (env : Env),
    (env.bindParams offset ps).layouts = env.layouts
  | [], _, _ => rfl
  | p :: ps, _, env => (bindParams_layouts ps _ _).trans (Env.insert_layouts env p.id _)

/-- The steps of a routine, given those of its local declarations. -/
theorem routine_visits_sound {params : List Param} {locals : List Dec} (body : Expr)
    (h : env.Roomy (1 + 2 * params.length + 2 * localBinders locals))
    (hlocals : ∀ {env : Env}, env.Roomy (2 * localBinders locals) → ∀ v ∈ localVisits env locals, v.SoundAt env) :
    ∀ v ∈ paramVisits 1 env.enter params ++ localVisits (env.inRoutine params) locals ++
      body.visits ((env.inRoutine params).afterAll locals), v.SoundAt env := by
  have hroom := h.room
  have hlow := h.low
  have hinner : (env.inRoutine params).Roomy (2 * localBinders locals) := (h.mono (by omega)).inRoutine params
  have htables : (env.inRoutine params).tables = env.tables := Env.bindParams_tables params 1 _
  have hlayouts : (env.inRoutine params).layouts = env.layouts := bindParams_layouts params 1 _
  intro v hv
  rcases List.mem_append.1 hv with hv | hv
  · rcases List.mem_append.1 hv with hv | hv
    · have henter : env.enter.scopes ≠ [] := List.cons_ne_nil _ _
      exact (paramVisits_sound params henter (Int.le_refl _) (by omega) v hv).of_eq rfl rfl
    · exact (hlocals hinner v hv).of_eq htables hlayouts
  · have hbody := hinner.afterAll (n := 0) locals
    refine (body.visits_sound hbody.opened v hv).of_eq ?_ ?_
    · rw [Env.afterAll_tables, htables]
    · rw [(Env.afterAll_known _ _).1, hlayouts]

mutual

/-- **Where there is room for the names of a declaration, all its steps can be taken.** -/
theorem Dec.visits_sound : ∀ (d : Dec) {env : Env}, env.Roomy (2 * d.binders) → ∀ v ∈ d.visits env, v.SoundAt env
  | .var l x ty e, env, h, v, hv => by
    rcases List.mem_append.1 hv with hv | hv
    · exact e.visits_sound h.opened v hv
    · obtain rfl := List.mem_singleton.1 hv
      have hroom := h.room
      have hlow := h.low
      exact ⟨⟨h.opened, h.fitsWord, by show env.level + 1 ≤ maxInt32; omega⟩, rfl, rfl⟩
  | .func l x ret params locals body, env, h, v, hv => by
    rw [Dec.visits] at hv
    rcases List.mem_cons.1 hv with rfl | hv
    · have hroom := h.room
      have hlow := h.low
      exact ⟨⟨h.opened, h.fitsWord, by show env.level + 1 ≤ maxInt32; omega⟩, rfl, rfl⟩
    · rw [Dec.binders] at h
      have hdeclared : (env.declare x (.function (signatureOf params ret))).Roomy
          (1 + 2 * params.length + 2 * localBinders locals) := (h.mono (by omega)).declare _ _
      have hin := routine_visits_sound body hdeclared (fun h => localVisits_sound locals h) v hv
      exact hin.of_eq (Env.insert_tables _ _ _) (Env.insert_layouts _ _ _)

theorem localVisits_sound : ∀ (ds : List Dec) {env : Env}, env.Roomy (2 * localBinders ds) →
    ∀ v ∈ localVisits env ds, v.SoundAt env
  | [], _, _, _, hv => nomatch hv
  | d :: ds, env, h, v, hv => by
    rw [localBinders, Nat.mul_add] at h
    rcases List.mem_append.1 hv with hv | hv
    · exact d.visits_sound (h.mono (by omega)) v hv
    · have hds := localVisits_sound ds h.after v hv
      exact hds.of_eq (Env.after_tables env d) (Env.after_known env d).1

end

/-! ## Classes -/

theorem Method.visits_sound {m : Method} (h : env.Roomy (2 * m.binders)) : ∀ v ∈ m.visits env, v.SoundAt env :=
  routine_visits_sound m.body (h.mono (by rw [Method.binders]; omega)) fun h => localVisits_sound m.locals h

theorem binders_le_methodBinders {m : Method} : ∀ {ms : List Method}, m ∈ ms → m.binders ≤ methodBinders ms
  | d :: ms, hm => by
    rw [methodBinders]
    rcases List.mem_cons.1 hm with rfl | hm
    · omega
    · have := binders_le_methodBinders hm
      omega

theorem exists_of_mem_bodyVisits {level : Nat} {v : Visit} : ∀ {ms : List Method} {s : Members},
    v ∈ bodyVisits env level s ms → ∃ m ∈ ms, v ∈ m.visits env
  | [], _, hv => nomatch hv
  | m :: ms, s, hv => by
    rcases List.mem_append.1 hv with hv | hv
    · split at hv
      · exact ⟨m, List.mem_cons_self, hv⟩
      · cases hv
    · obtain ⟨d, hd, hv⟩ := exists_of_mem_bodyVisits hv
      exact ⟨d, List.mem_cons_of_mem _ hd, hv⟩

theorem fieldVisits_sound (hl : env.level = 0) (h : env.scopes ≠ []) : ∀ (fs : List Field) {s : Members} {k : Nat},
    s.TidyUpTo k → (∀ f ∈ fs, f.ty.isMethod = false) → k + fs.length ≤ maxInt32 →
    ∀ v ∈ fieldVisits env s fs, v.SoundAt env
  | [], _, _, _, _, _, _, hv => nomatch hv
  | f :: fs, s, k, hs, hp, hb, v, hv => by
    obtain ⟨hf, hfs⟩ := List.forall_mem_cons.1 hp
    rw [List.length_cons] at hb
    rw [fieldVisits, hl] at hv
    rcases List.mem_cons.1 hv with rfl | hv
    · obtain ⟨fields, methods, ht, hle⟩ := hs
      exact ⟨⟨h, ht.takesField (by omega) f⟩, rfl, rfl⟩
    · exact fieldVisits_sound hl h fs (hs.addField hf (by omega)) hfs (by omega) v hv

theorem methodVisits_sound (hl : env.level = 0) (h : env.scopes ≠ []) : ∀ (ms : List Method) {s : Members} {k : Nat},
    s.TidyUpTo k → k + ms.length ≤ maxInt32 → ∀ v ∈ methodVisits env s ms, v.SoundAt env
  | [], _, _, _, _, _, hv => nomatch hv
  | m :: ms, s, k, hs, hb, v, hv => by
    rw [List.length_cons] at hb
    rw [methodVisits, hl] at hv
    rcases List.mem_cons.1 hv with rfl | hv
    · obtain ⟨fields, methods, ht, hle⟩ := hs
      exact ⟨⟨h, ht.takesMethod (by omega) m⟩, rfl, rfl⟩
    · exact methodVisits_sound hl h ms (hs.addMethod m (by omega)) (by omega) v hv

end

/-- Between two classes: each class that is known has a virtual table and a layout, whose members are named by the same
names, `k` at most. -/
structure Env.Laid (k : Nat) (env : Env) : Prop where
  level : env.level = 0
  known : ∀ c, (env.tables.lookup c).isSome ↔ (env.layouts.lookup c).isSome
  tidy : ∀ c T l, env.tables.lookup c = some T → env.layouts.lookup c = some l → Members.TidyUpTo k ⟨T, l, []⟩

namespace Env.Laid

variable {env : Env} {k : Nat} {c : Class}

theorem initial (names : List Ident) : (Env.initial names).Laid 0 := ⟨rfl, fun _ => Iff.rfl, fun _ _ _ hT => nomatch hT⟩

theorem matching (h : env.Laid k) (hk : k ≤ maxInt32) : env.Matching where
  known := h.known
  agree c T l hT hl := by
    obtain ⟨fields, methods, ht, hle⟩ := h.tidy c T l hT hl
    exact ht.matching (by omega) (by omega)

theorem inherited (h : env.Laid k) (c : Class) : (env.inherited c).TidyUpTo k := by
  unfold Env.inherited
  split
  · exact ⟨[], [], .empty, Nat.zero_le k⟩
  · rename_i s _
    split
    · exact ⟨[], [], .empty, Nat.zero_le k⟩
    · rename_i T hT
      obtain ⟨l, hl⟩ := Option.isSome_iff_exists.1 ((h.known s).1 (Option.isSome_iff_exists.2 ⟨T, hT⟩))
      rw [hl, Option.getD_some]
      exact h.tidy s T l hT hl

theorem withFields (h : env.Laid k) (hp : ∀ f ∈ c.fields, f.ty.isMethod = false) (hb : k + c.declared ≤ maxInt32) :
    (env.withFields c).TidyUpTo (k + c.fields.length) := by
  rw [Class.declared] at hb
  rw [Env.withFields, h.level]
  exact (h.inherited c).addFields c.fields hp (by omega)

theorem members (h : env.Laid k) (hp : ∀ f ∈ c.fields, f.ty.isMethod = false) (hb : k + c.declared ≤ maxInt32) :
    (env.members c).TidyUpTo (k + c.declared) := by
  have hwith := h.withFields hp hb
  rw [Class.declared] at hb ⊢
  rw [Env.members, h.level, ← Nat.add_assoc]
  exact hwith.addMethods c.methods (by omega)

/-- **One more class keeps this**, whatever is refused in it, and also where it takes the place of an earlier one. -/
theorem afterClass (h : env.Laid k) (hp : ∀ f ∈ c.fields, f.ty.isMethod = false) (hb : k + c.declared ≤ maxInt32) :
    (env.afterClass c).Laid (k + c.declared) where
  level := (insert_level _ _ _).trans h.level
  known d := by
    show (List.lookup d (_ :: _)).isSome ↔ (List.lookup d (_ :: _)).isSome
    by_cases hd : d = c.id
    · rw [hd, List.lookup_cons_self, List.lookup_cons_self]
      exact Iff.rfl
    · rw [lookup_cons_of_ne hd, lookup_cons_of_ne hd]
      exact h.known d
  tidy d T l hT hl := by
    have hT : List.lookup d ((c.id, (env.members c).table) :: env.tables) = some T := hT
    have hl : List.lookup d ((c.id, (env.members c).layout) :: env.layouts) = some l := hl
    by_cases hd : d = c.id
    · rw [hd, List.lookup_cons_self] at hT hl
      obtain rfl := Option.some.inj hT
      obtain rfl := Option.some.inj hl
      obtain ⟨fields, methods, ht, hle⟩ := h.members hp hb
      exact ⟨fields, methods, ht.of_eq rfl rfl, hle⟩
    · rw [lookup_cons_of_ne hd] at hT hl
      exact (h.tidy d T l hT hl).mono (by omega)

end Env.Laid

theorem Visit.SoundAt.matching {env : Env} {v : Visit} (h : v.SoundAt env) (he : env.Matching) : v.env.Matching := by
  obtain ⟨hk, ha⟩ := he
  rw [← h.tables] at hk ha
  rw [← h.layouts] at hk ha
  exact ⟨hk, ha⟩

section

variable {env : Env} {n k : Nat} {c : Class}

theorem Env.Roomy.afterClass (h : env.Roomy (n + 1)) (c : Class) : (env.afterClass c).Roomy n := by
  obtain ⟨ho, hlow, hroom⟩ := h.declare c.id (.cls (env.members c).layout)
  exact ⟨ho, hlow, hroom⟩

theorem Env.Roomy.inClass (h : env.Roomy (n + 2)) (c : Class) : (env.inClass c).Roomy n := by
  have hdone := Env.Roomy.afterClass (n := n + 1) h c
  have hlevel : (env.afterClass c).level = env.level := insert_level _ _ _
  refine ⟨List.cons_ne_nil _ _, hdone.low, ?_⟩
  have hroom := hdone.room
  rw [hlevel] at hroom
  show -2 - (env.afterClass c).next + ((env.level + 1 : Nat) : Int) + n + 4 ≤ maxInt32
  omega

/-- **All steps of a class can be taken**, and the classes known at them have matching tables and layouts. -/
theorem Class.visits_sound (h : env.Laid k) (hr : env.Roomy (2 * c.binders))
    (hp : ∀ f ∈ c.fields, f.ty.isMethod = false) (hb : k + c.declared ≤ maxInt32) :
    ∀ v ∈ c.visits env, v.Defined ∧ v.env.Matching := by
  have hmatching := h.matching (by omega)
  have hmatching' := (h.afterClass hp hb).matching hb
  have hwith := h.withFields hp hb
  rw [Class.binders] at hr
  rw [Class.declared] at hb
  intro v hv
  rcases List.mem_cons.1 hv with rfl | hv
  · have hroom := hr.room
    have hlow := hr.low
    exact ⟨⟨hr.opened, (hr.mono (Nat.zero_le _)).fitsWord, by show env.level + 2 ≤ maxInt32; omega⟩, hmatching⟩
  rcases List.mem_append.1 hv with hv | hv
  · have hsound : v.SoundAt env := by
      rcases List.mem_append.1 hv with hv | hv
      · exact fieldVisits_sound h.level hr.opened c.fields (h.inherited c) hp (by omega) v hv
      · exact methodVisits_sound h.level hr.opened c.methods hwith (by omega) v hv
    exact ⟨hsound.defined, hsound.matching hmatching⟩
  · obtain ⟨m, hm, hv⟩ := exists_of_mem_bodyVisits hv
    have hle := binders_le_methodBinders hm
    have hinner : (env.inClass c).Roomy (2 * m.binders) := (hr.mono (by omega)).inClass c
    have hsound := Method.visits_sound hinner v hv
    exact ⟨hsound.defined, hsound.matching ⟨hmatching'.known, hmatching'.agree⟩⟩

end

/-- What a list of classes leaves known and room for, and the steps taken over it. -/
theorem classVisits_sound : ∀ (cs : List Class) {env : Env} {n k : Nat}, env.Laid k →
    env.Roomy (2 * classBinders cs + n) → Plain (fieldTypes cs) → k + declaredIn cs ≤ maxInt32 →
    (∀ v ∈ classVisits env cs, v.Defined ∧ v.env.Matching) ∧ (cs.foldl Env.afterClass env).Roomy n ∧
      (cs.foldl Env.afterClass env).Laid (k + declaredIn cs)
  | [], _, _, _, h, hr, _, _ => ⟨nofun, hr.mono (by omega), h⟩
  | c :: cs, env, n, k, h, hr, hp, hb => by
    rw [classBinders, Nat.mul_add] at hr
    rw [declaredIn, ← Nat.add_assoc] at hb ⊢
    have hpc : ∀ f ∈ c.fields, f.ty.isMethod = false := fun f hf =>
      hp _ (List.mem_append_left _ (List.mem_map_of_mem hf))
    have hr' : (env.afterClass c).Roomy (2 * classBinders cs + n) :=
      (hr.mono (by rw [Class.binders]; omega)).afterClass c
    obtain ⟨hcs, hroom, hlaid⟩ := classVisits_sound cs (h.afterClass hpc (by omega)) hr'
      (fun t ht => hp t (List.mem_append_right _ ht)) hb
    refine ⟨fun v hv => ?_, hroom, hlaid⟩
    rcases List.mem_append.1 hv with hv | hv
    · exact Class.visits_sound h (hr.mono (by omega)) hpc (by omega) v hv
    · exact hcs v hv

/-! ## Programs -/

/-- **Virtual tables and layouts stay paired off**: at every step of the pass over a program, with or without errors,
the classes known so far have a virtual table and a layout each that match, and the step can be taken. -/
theorem virtual_tables_match {source : List Char} {p : Program} (hp : parse source = .ok p)
    (hb : Text.byteLength source ≤ maxInt32) : ∀ v ∈ p.visits, v.Defined ∧ v.env.Matching := by
  obtain ⟨-, hfew, hplain⟩ := parse_sound hp
  have hbinders := three_mul_binders_le hp
  rw [Program.binders] at hbinders
  have hstart : p.initialEnv.Roomy (2 * classBinders p.classes + 2 * localBinders p.decs) := by
    refine ⟨List.cons_ne_nil _ _, Int.le_refl _, ?_⟩
    show -2 - (-2 : Int) + ((0 : Nat) : Int) + _ + 4 ≤ maxInt32
    unfold maxInt32 at hb ⊢
    omega
  obtain ⟨hcs, hroom, hlaid⟩ := classVisits_sound p.classes (.initial _) hstart hplain (by omega)
  have hmatching : p.classEnv.Matching := hlaid.matching (by omega)
  intro v hv
  rcases List.mem_append.1 hv with hv | hv
  · rcases List.mem_append.1 hv with hv | hv
    · exact hcs v hv
    · have hsound := localVisits_sound p.decs hroom v hv
      exact ⟨hsound.defined, hsound.matching hmatching⟩
  · have hbody := Env.Roomy.afterAll (n := 0) p.decs hroom
    have hsound := (p.body.visits_sound hbody.opened v hv).of_eq (Env.afterAll_tables p.decs p.classEnv)
      (Env.afterAll_known p.decs p.classEnv).1
    exact ⟨hsound.defined, hsound.matching hmatching⟩

/-- A source where fields and methods are repeated and clash, where a class is declared again below its subclass, and
where one extends a class that is missing. -/
def clashingSource : List Char :=
  "let class A (x: int, x: bool, m: int) { fun m: int () 1; fun f: int (x: int) x; } ".toList ++
    ("class B extends A (x: bool, f: int, y: int) { fun f: int () y; fun g: int () 3; } ".toList ++
    ("class A (z: bool) { } class C extends B () { fun g: bool () z; } ".toList ++
    "class D extends E () { } in 1;".toList))

/-- The class C still has the fields x and m and the method f of the first A, and y and g of B. -/
theorem clashingSource_match : ∃ p T l, parse clashingSource = .ok p ∧ p.nameErrors.length = 7 ∧
    p.mainEnv.tables.lookup ⟨"C".toList⟩ = some T ∧ p.mainEnv.layouts.lookup ⟨"C".toList⟩ = some l ∧
    T.length = 7 ∧ l.fields.length = 3 ∧ l.methods.length = 2 ∧ T.Matches l ∧
    ∀ v ∈ p.visits, v.Defined ∧ v.env.Matching := by
  have hparsed : ((parse clashingSource).toOption.any (fun p => decide (p.nameErrors.length = 7) &&
      ((p.mainEnv.tables.lookup ⟨"C".toList⟩).any fun T => (p.mainEnv.layouts.lookup ⟨"C".toList⟩).any fun l =>
        decide (T.length = 7 ∧ l.fields.length = 3 ∧ l.methods.length = 2))) &&
      decide (Text.byteLength clashingSource ≤ maxInt32)) = true := by
    decide +kernel
  obtain ⟨hparsed, hbytes⟩ := Bool.and_eq_true_iff.1 hparsed
  obtain ⟨p, hp, hm⟩ := exists_of_any hparsed
  simp only [Bool.and_eq_true, decide_eq_true_eq, Option.any_eq_true] at hm
  obtain ⟨herrors, T, hT, l, hl, htable, hfields, hmethods⟩ := hm
  have hall := virtual_tables_match hp (of_decide_eq_true hbytes)
  have hbody : Visit.node p.mainEnv p.body ∈ p.visits :=
    List.mem_append_right _ (List.mem_map_of_mem p.body.mem_nodes)
  exact ⟨p, T, l, hp, herrors, hT, hl, htable, hfields, hmethods, (hall _ hbody).2.agree _ T l hT hl, hall⟩

end FoolLang
