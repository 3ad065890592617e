import FoolLang.Proofs.Ancestry
import FoolLang.Proofs.Generate
import FoolLang.Proofs.VirtualTables
/-!
# Overrides — which overriding members are reported

A member that a class accepts keeps the position of the inherited one it overrides, and the check compares what the two
layouts hold there.  A field that is refused is left out of the check, but a method that is refused is compared at
slot 0, whatever its name (`Members.methodStrays`).  So what is reported are the members that do not fit those they
override, and refused methods beside them (`override_errors`); the source `refusedOverrideSource` has one of each.
-/
namespace FoolLang

open Text (maxInt32)

/-- Whether an error is about a member and the one it overrides. -/
def TypeError.isOverride : TypeError → Bool
  | wrongMethod _ _ | wrongField _ _ => true
  | _ => false

/-! ## The members of a class, one after the other -/

namespace Members

/-- Fields, each with the members before it. -/
def fieldSteps (level : Nat) (s : Members) : List Field → List (Members × Field)
  | [] => []
  | f :: fs => (s, f) :: fieldSteps level (s.addField level f) fs

/-- Methods, each with the members before it. -/
def methodSteps (level : Nat) (s : Members) : List Method → List (Members × Method)
  | [] => []
  | m :: ms => (s, m) :: methodSteps level (s.addMethod level m) ms

/-- Whether a field is accepted after the members `s`, and overrides an inherited one that its type is not below. -/
def fieldMisfits (h : Hierarchy) (s inherited : Members) (f : Field) : Bool :=
  match s.fieldSlot f.id, inherited.table.lookup f.id with
  | .ok _, some e => !h.isSubtype f.ty e.ty
  | _, _ => false

/-- Whether a method is accepted after the members `s`, and overrides an inherited one that its signature is not
below. -/
def methodMisfits (h : Hierarchy) (s inherited : Members) (m : Method) : Bool :=
  match s.methodSlot m.id, inherited.table.lookup m.id with
  | .ok _, some e => !h.isSubtype (.method m.signature) e.ty
  | _, _ => false

/-- Whether a method is refused after the members `s`, while the signatures at slot 0, that of the whole class and the
inherited one, are not below each other. -/
def methodStrays (h : Hierarchy) (s inherited whole : Members) (m : Method) : Bool :=
  match s.methodSlot m.id with
  | .ok _ => false
  | .error _ => conflictAt h.isSubsignature whole.layout.methods inherited.layout.methods 0

end Members

section

variable (h : Hierarchy) (env : Env) (c : Class)

/-- The fields of a class that do not fit those they override. -/
def Class.misfitFields : List Field :=
  ((Members.fieldSteps (env.level + 1) (env.inherited c) c.fields).filter fun (s, f) =>
    s.fieldMisfits h (env.inherited c) f).map Prod.snd

/-- The methods of a class, each with the members before it. -/
def Class.methodSteps : List (Members × Method) := Members.methodSteps (env.level + 1) (env.withFields c) c.methods

/-- The methods of a class that do not fit those they override. -/
def Class.misfitMethods : List Method :=
  ((c.methodSteps env).filter fun (s, m) => s.methodMisfits h (env.inherited c) m).map Prod.snd

/-- The methods of a class that are refused, and compared at slot 0 nevertheless. -/
def Class.strays : List Method :=
  ((c.methodSteps env).filter fun (s, m) => s.methodStrays h (env.inherited c) (env.members c) m).map Prod.snd

/-- The methods of a class that are one or the other, in their order. -/
def Class.misfitOrStrayMethods : List Method :=
  ((c.methodSteps env).filter fun (s, m) =>
    s.methodMisfits h (env.inherited c) m || s.methodStrays h (env.inherited c) (env.members c) m).map Prod.snd

end

/-- Errors about overriding fields, then about overriding methods. -/
def overridingErrors (fs : List Field) (ms : List Method) : List TypeError :=
  fs.map (fun f => .wrongField f.id f.line) ++ ms.map (fun m => .wrongMethod m.id m.line)

/-- Classes, each with what is visible before it. -/
def classSteps (env : Env) : List Class → List (Env × Class)
  | [] => []
  | c :: cs => (env, c) :: classSteps (env.afterClass c) cs

namespace Program

variable (p : Program)

/-- The errors about the members of a program that are accepted and do not fit those they override. -/
def misfits : List TypeError :=
  (classSteps p.initialEnv p.classes).flatMap fun (env, c) =>
    overridingErrors (c.misfitFields p.mainEnv.hierarchy env) (c.misfitMethods p.mainEnv.hierarchy env)

/-- These errors, and beside them those about refused methods that are compared at slot 0. -/
def misfitsAndStrays : List TypeError :=
  (classSteps p.initialEnv p.classes).flatMap fun (env, c) =>
    overridingErrors (c.misfitFields p.mainEnv.hierarchy env) (c.misfitOrStrayMethods p.mainEnv.hierarchy env)

/-- The methods of a program that are refused, and compared at slot 0 nevertheless. -/
def strays : List Method :=
  (classSteps p.initialEnv p.classes).flatMap fun (env, c) => c.strays p.mainEnv.hierarchy env

end Program

/-! ## What a member leaves as it is -/

namespace Members

/-- Members declared from `s₀` on leave the earlier ones in place, and what is not declared again as it was. -/
structure Grows (s₀ s : Members) : Prop where
  fields : s₀.layout.fields.length ≤ s.layout.fields.length
  methods : s₀.layout.methods.length ≤ s.layout.methods.length
  unseen : ∀ x ∉ s.seen, s.table.lookup x = s₀.table.lookup x
  seen : ∀ x ∈ s₀.seen, x ∈ s.seen ∧ s.table.lookup x = s₀.table.lookup x

variable {s₀ s s₁ s₂ : Members} {x : Ident} {off : Int}

theorem Grows.refl (s : Members) : s.Grows s := ⟨Nat.le_refl _, Nat.le_refl _, fun _ _ => rfl, fun _ hx => ⟨hx, rfl⟩⟩

theorem Grows.trans (h₁ : s₀.Grows s₁) (h₂ : s₁.Grows s₂) : s₀.Grows s₂ where
  fields := Nat.le_trans h₁.fields h₂.fields
  methods := Nat.le_trans h₁.methods h₂.methods
  unseen x hx := (h₂.unseen x hx).trans (h₁.unseen x fun hx₁ => hx (h₂.seen x hx₁).1)
  seen x hx := by
    obtain ⟨hx₁, he₁⟩ := h₁.seen x hx
    obtain ⟨hx₂, he₂⟩ := h₂.seen x hx₁
    exact ⟨hx₂, he₂.trans he₁⟩

/-- An accepted field is new to the class, and keeps the offset of the field it overrides if there is one. -/
theorem fieldSlot_cases (h : s.fieldSlot x = .ok off) : x ∉ s.seen ∧
    (s.table.lookup x = none ∧ off = fieldOffset s.layout.fields.length ∨
      ∃ e, s.table.lookup x = some e ∧ e.ty.isMethod = false ∧ off = e.offset) := by
  unfold fieldSlot at h
  split at h
  · cases h
  · rename_i hx
    refine ⟨hx, ?_⟩
    split at h
    · cases h
      exact .inl ⟨‹_›, rfl⟩
    · rename_i e he
      split at h
      · cases h
      · rename_i hm
        cases h
        exact .inr ⟨e, he, eq_false_of_ne_true hm, rfl⟩

/-- An accepted method is new to the class, and keeps the slot of the method it overrides if there is one. -/
theorem methodSlot_cases (h : s.methodSlot x = .ok off) : x ∉ s.seen ∧
    (s.table.lookup x = none ∧ off = methodOffset s.layout.methods.length ∨
      ∃ e, s.table.lookup x = some e ∧ e.ty.isMethod = true ∧ off = e.offset) := by
  unfold methodSlot at h
  split at h
  · cases h
  · rename_i hx
    refine ⟨hx, ?_⟩
    split at h
    · cases h
      exact .inl ⟨‹_›, rfl⟩
    · rename_i e he
      split at h
      · rename_i hm
        cases h
        exact .inr ⟨e, he, hm, rfl⟩
      · cases h

theorem length_le_place {α : Type} (i : Nat) (a : α) (l : List α) : l.length ≤ (place i a l).length := by
  unfold place
  split <;> simp

/-- A name that was not seen is entered, and nothing else is touched. -/
theorem Grows.of_new {e : Entry} {l : Layout} (hx : x ∉ s.seen) (hf : s.layout.fields.length ≤ l.fields.length)
    (hm : s.layout.methods.length ≤ l.methods.length) : s.Grows ⟨(x, e) :: s.table, l, x :: s.seen⟩ where
  fields := hf
  methods := hm
  unseen _ hy := lookup_cons_of_ne (List.ne_of_not_mem_cons hy) e s.table
  seen _ hy := ⟨List.mem_cons_of_mem x hy, lookup_cons_of_ne (ne_of_mem_of_not_mem hy hx) e s.table⟩

/-- A name is refused, and nothing is touched. -/
theorem Grows.of_refused (s : Members) (x : Ident) : s.Grows { s with seen := x :: s.seen } :=
  ⟨Nat.le_refl _, Nat.le_refl _, fun _ _ => rfl, fun _ hy => ⟨List.mem_cons_of_mem x hy, rfl⟩⟩

theorem grows_addField (level : Nat) (s : Members) (f : Field) : s.Grows (s.addField level f) := by
  unfold addField
  cases hslot : s.fieldSlot f.id with
  | error r => exact .of_refused s f.id
  | ok off => exact .of_new ((fieldSlot_cases hslot).1) (length_le_place _ _ _) (Nat.le_refl _)

theorem grows_addMethod (level : Nat) (s : Members) (m : Method) : s.Grows (s.addMethod level m) := by
  unfold addMethod
  cases hslot : s.methodSlot m.id with
  | error r => exact .of_refused s m.id
  | ok off => exact .of_new ((methodSlot_cases hslot).1) (Nat.le_refl _) (length_le_place _ _ _)

theorem grows_addFields (level : Nat) : ∀ (fs : List Field) (s : Members), s.Grows (fs.foldl (addField level) s)
  | [], s => .refl s
  | f :: fs, s => (grows_addField level s f).trans (grows_addFields level fs _)

theorem grows_addMethods (level : Nat) : ∀ (ms : List Method) (s : Members), s.Grows (ms.foldl (addMethod level) s)
  | [], s => .refl s
  | m :: ms, s => (grows_addMethod level s m).trans (grows_addMethods level ms _)

/-! ## What is compared -/

theorem conflictAt_of_le {α : Type} {below : α → α → Bool} {own inherited : List α} {i : Nat}
    (h : inherited.length ≤ i) : conflictAt below own inherited i = false := by
  rw [conflictAt, List.getElem?_eq_none h]
  cases own[i]? <;> rfl

theorem conflictAt_of_getElem? {α : Type} {below : α → α → Bool} {own inherited : List α} {i : Nat} {a b : α}
    (ha : own[i]? = some a) (hb : inherited[i]? = some b) : conflictAt below own inherited i = !below a b := by
  rw [conflictAt, ha, hb]

variable {h : Hierarchy} {whole : Members}

/-- **A field is reported exactly when it does not fit the inherited one it overrides.** -/
theorem fieldMisfits_eq {level : Nat} {f : Field} (hs : s₀.Grows s) (hw : (s.addField level f).Grows whole)
    (hm₀ : s₀.table.Matches s₀.layout) (hm : whole.table.Matches whole.layout)
    (hb : whole.layout.fields.length ≤ maxInt32) (hf : f.ty.isMethod = false) (h0 : f.offset = 0) {offset : Int}
    (hoffset : offset = (s.fieldSlot f.id).toOption.getD f.offset) :
    (decide (offset < 0) && conflictAt h.isSubtype whole.layout.fields s₀.layout.fields (-offset - 1).toNat) =
      s.fieldMisfits h s₀ f := by
  rw [fieldMisfits]
  cases hslot : s.fieldSlot f.id with
  | error r =>
    rw [hslot] at hoffset
    rw [hoffset, show (Except.toOption (.error r : Except Refusal Int)).getD f.offset = 0 from h0]
    rfl
  | ok off =>
    rw [hslot] at hoffset
    obtain rfl : offset = off := hoffset
    obtain ⟨hx, hcases⟩ := fieldSlot_cases hslot
    have hown : whole.table.lookup f.id = some ⟨level, f.ty, offset⟩ := by
      rw [(hw.seen f.id (by simp [addField_seen])).2, addField, hslot]
      exact List.lookup_cons_self
    obtain ⟨i, hi, hoff, hty⟩ := hm.field _ _ hown hf
    obtain rfl : offset = -(i : Int) - 1 := hoff
    have hneg : (-(i : Int) - 1) < 0 := by omega
    have hpos : (-(-(i : Int) - 1) - 1).toNat = i := by omega
    rw [decide_eq_true hneg, Bool.true_and, hpos]
    rw [hs.unseen f.id hx] at hcases
    rcases hcases with ⟨hnone, hnew⟩ | ⟨e, he, hfield, hsame⟩
    · have hlen := hs.fields
      have hlen' := Nat.le_trans (grows_addField level s f).fields hw.fields
      rw [fieldOffset_eq (by omega)] at hnew
      rw [hnone, conflictAt_of_le (by omega)]
    · obtain ⟨i', -, hoff', hty'⟩ := hm₀.field _ _ he hfield
      obtain rfl : i' = i := by omega
      rw [he, conflictAt_of_getElem? hty hty']

/-- **A method is reported exactly when it does not fit the inherited one it overrides**, and also when it is refused
and slot 0 is overridden by a method that does not fit. -/
theorem methodMisfits_eq {level : Nat} {m : Method} (hs : s₀.Grows s) (hw : (s.addMethod level m).Grows whole)
    (hm₀ : s₀.table.Matches s₀.layout) (hm : whole.table.Matches whole.layout)
    (hb : whole.layout.methods.length ≤ maxInt32) (h0 : m.offset = 0) {offset : Int}
    (hoffset : offset = (s.methodSlot m.id).toOption.getD m.offset) :
    conflictAt h.isSubsignature whole.layout.methods s₀.layout.methods offset.toNat =
      (s.methodMisfits h s₀ m || s.methodStrays h s₀ whole m) := by
  rw [methodMisfits, methodStrays]
  cases hslot : s.methodSlot m.id with
  | error r =>
    rw [hslot] at hoffset
    rw [hoffset, show (Except.toOption (.error r : Except Refusal Int)).getD m.offset = 0 from h0]
    rfl
  | ok off =>
    rw [hslot] at hoffset
    obtain rfl : offset = off := hoffset
    obtain ⟨hx, hcases⟩ := methodSlot_cases hslot
    have hown : whole.table.lookup m.id = some ⟨level, .method m.signature, offset⟩ := by
      rw [(hw.seen m.id (by simp [addMethod_seen])).2, addMethod, hslot]
      exact List.lookup_cons_self
    obtain ⟨j, hj, hoff, sig, hsig, hty⟩ := hm.method _ _ hown rfl
    obtain rfl : offset = (j : Int) := hoff
    obtain rfl : m.signature = sig := Ty.method.inj hty
    rw [hs.unseen m.id hx] at hcases
    rcases hcases with ⟨hnone, hnew⟩ | ⟨e, he, hmethod, hsame⟩
    · have hlen := hs.methods
      have hlen' := Nat.le_trans (grows_addMethod level s m).methods hw.methods
      rw [methodOffset_eq (by omega)] at hnew
      rw [hnone, conflictAt_of_le (by omega)]
      rfl
    · obtain ⟨j', -, hoff', sig', hsig', hty'⟩ := hm₀.method _ _ he hmethod
      obtain rfl : j' = j := by omega
      rw [he, Int.toNat_natCast, conflictAt_of_getElem? hsig hsig']
      show _ = (!h.isSubtype (.method m.signature) e.ty || false)
      rw [hty', Bool.or_false]
      rfl

/-- Members up to which a class is complete, and those it starts from, where the two can be compared. -/
structure Comparable (s₀ whole : Members) : Prop where
  inherited : s₀.table.Matches s₀.layout
  matching : whole.table.Matches whole.layout
  fields : whole.layout.fields.length ≤ maxInt32
  methods : whole.layout.methods.length ≤ maxInt32

theorem filter_resolveFields (level : Nat) (hc : s₀.Comparable whole) : ∀ (fs : List Field) {s : Members}, s₀.Grows s →
    (fs.foldl (Members.addField level) s).Grows whole → (∀ f ∈ fs, f.ty.isMethod = false ∧ f.offset = 0) →
    ((resolveFields level s fs).filter fun f => decide (f.offset < 0) &&
        conflictAt h.isSubtype whole.layout.fields s₀.layout.fields (-f.offset - 1).toNat).map
      (fun f => TypeError.wrongField f.id f.line) =
    (((fieldSteps level s fs).filter fun (s, f) => s.fieldMisfits h s₀ f).map Prod.snd).map
      fun f => .wrongField f.id f.line
  | [], _, _, _, _ => rfl
  | f :: fs, s, hs, hw, hfs => by
    obtain ⟨⟨hf, h0⟩, hfs⟩ := List.forall_mem_cons.1 hfs
    have hstep := grows_addField level s f
    have ih := filter_resolveFields level hc fs (hs.trans hstep) hw hfs
    have heq := fieldMisfits_eq (h := h) hs ((grows_addFields level fs _).trans hw) hc.inherited hc.matching hc.fields
      hf h0 rfl
    simp only [resolveFields, fieldSteps, List.filter_cons, heq]
    cases s.fieldMisfits h s₀ f with
    | true => simp only [if_true, List.map_cons, ih]
    | false => simpa only [Bool.false_eq_true, if_false] using ih

/-- What a method is left as keeps its name and line, and gets the offset of its slot. -/
theorem resolveMethods_cons (env : Env) (level : Nat) (s : Members) (m : Method) (ms : List Method) :
    ∃ m', resolveMethods env level s (m :: ms) = m' :: resolveMethods env level (s.addMethod level m) ms ∧
      m'.id = m.id ∧ m'.line = m.line ∧ m'.offset = (s.methodSlot m.id).toOption.getD m.offset := by
  refine ⟨_, rfl, ?_⟩
  cases s.methodSlot m.id <;> exact ⟨rfl, rfl, rfl⟩

theorem filter_resolveMethods (level : Nat) (env : Env) (hc : s₀.Comparable whole) : ∀ (ms : List Method) {s : Members},
    s₀.Grows s → (ms.foldl (Members.addMethod level) s).Grows whole → (∀ m ∈ ms, m.offset = 0) →
    ((resolveMethods env level s ms).filter fun m =>
        conflictAt h.isSubsignature whole.layout.methods s₀.layout.methods m.offset.toNat).map
      (fun m => TypeError.wrongMethod m.id m.line) =
    (((methodSteps level s ms).filter fun (s, m) =>
        s.methodMisfits h s₀ m || s.methodStrays h s₀ whole m).map Prod.snd).map
      fun m => .wrongMethod m.id m.line
  | [], _, _, _, _ => rfl
  | m :: ms, s, hs, hw, hms => by
    obtain ⟨h0, hms⟩ := List.forall_mem_cons.1 hms
    have hstep := grows_addMethod level s m
    have ih := filter_resolveMethods level env hc ms (hs.trans hstep) hw hms
    obtain ⟨m', heq, hid, hline, hoffset⟩ := resolveMethods_cons env level s m ms
    have hm := methodMisfits_eq (h := h) hs ((grows_addMethods level ms _).trans hw) hc.inherited hc.matching hc.methods
      h0 hoffset
    simp only [heq, methodSteps, List.filter_cons, hm]
    cases s.methodMisfits h s₀ m || s.methodStrays h s₀ whole m with
    | true => simp only [if_true, List.map_cons, ih, hid, hline]
    | false => simpa only [Bool.false_eq_true, if_false] using ih

end Members

/-! ## Classes -/

/-- A class that has a virtual table is known in the global scope by the layout beside it. -/
def Env.Registered (env : Env) : Prop :=
  ∀ s, (env.tables.lookup s).isSome → ∃ level l offset,
    env.globals.lookup s = some ⟨level, .cls l, offset⟩ ∧ env.layouts.lookup s = some l

/-- The declarations of a class have no offsets yet, and its fields are no methods. -/
structure Class.Unplaced (c : Class) : Prop where
  fields : ∀ f ∈ c.fields, f.ty.isMethod = false ∧ f.offset = 0
  methods : ∀ m ∈ c.methods, m.offset = 0

namespace Env

variable {env : Env} {n : Nat} {c : Class}

theorem Registered.afterClass (h : env.Registered) (ht : env.AtTop) (c : Class) : (env.afterClass c).Registered := by
  intro s hs
  rw [ht.globals_afterClass c]
  show ∃ level l offset, _ ∧ List.lookup s ((c.id, (env.members c).layout) :: env.layouts) = some l
  by_cases hsc : s = c.id
  · rw [hsc, List.lookup_cons_self, List.lookup_cons_self]
    exact ⟨_, _, _, rfl, rfl⟩
  · rw [lookup_cons_of_ne hsc, lookup_cons_of_ne hsc]
    exact h s ((congrArg Option.isSome (lookup_cons_of_ne hsc _ _)).symm.trans hs)

/-- A class has the entry of a superclass whose layout it starts from, or it starts from nothing. -/
theorem Registered.superEntry (h : env.Registered) (c : Class) :
    (∃ level offset, env.superEntry c = some ⟨level, .cls (env.inherited c).layout, offset⟩) ∨
      env.superEntry c = none ∧ env.inherited c = .empty := by
  unfold Env.superEntry Env.inherited
  cases c.super with
  | none => exact .inr ⟨rfl, rfl⟩
  | some s =>
    dsimp only [Option.bind_some]
    unfold Env.instantiable
    cases hs : env.tables.lookup s with
    | none => exact .inr ⟨rfl, rfl⟩
    | some T =>
      obtain ⟨level, l, offset, hg, hl⟩ := h s (Option.isSome_iff_exists.2 ⟨T, hs⟩)
      refine .inl ⟨level, offset, ?_⟩
      rw [if_pos (show (some T).isSome = true from rfl), hg, hl]
      rfl

theorem Laid.comparable (h : env.Laid n) (hc : c.Unplaced) (hb : n + c.declared ≤ maxInt32) :
    (env.inherited c).Comparable (env.members c) := by
  obtain ⟨fields₀, methods₀, ht₀, hle₀⟩ := h.inherited c
  obtain ⟨fields, methods, ht, hle⟩ := h.members (fun f hf => (hc.fields f hf).1) hb
  exact ⟨ht₀.matching (by omega) (by omega), ht.matching (by omega) (by omega),
    by rw [← ht.ofFields.length]; omega, by rw [← ht.ofMethods.length]; omega⟩

end Env

/-- **What is reported of a class**: the members that do not fit those they override, and refused methods. -/
theorem Class.overrideErrors_resolve {env : Env} {n : Nat} {c : Class} (k : Classes) (h : env.Laid n)
    (hr : env.Registered) (hc : c.Unplaced) (hb : n + c.declared ≤ maxInt32) : (c.resolve env).overrideErrors k =
      overridingErrors (c.misfitFields k.hierarchy env) (c.misfitOrStrayMethods k.hierarchy env) := by
  have hcompare := h.comparable hc hb
  have hfields := Members.filter_resolveFields (h := k.hierarchy) (env.level + 1) hcompare c.fields (.refl _)
    (Members.grows_addMethods _ c.methods _) hc.fields
  have hmethods := Members.filter_resolveMethods (h := k.hierarchy) (s := env.withFields c) (env.level + 1)
    (env.inClass c) hcompare c.methods (Members.grows_addFields _ c.fields _) (.refl _) hc.methods
  rw [overridingErrors, misfitFields, misfitOrStrayMethods, ← hfields, methodSteps, ← hmethods, overrideErrors]
  rcases hr.superEntry c with ⟨level, offset, he⟩ | ⟨hnone, hempty⟩
  · rw [show (c.resolve env).superEntry = _ from he]
    rfl
  · rw [show (c.resolve env).superEntry = none from hnone, show (env.inherited c).layout = .empty by rw [hempty]; rfl]
    simp [Layout.empty, Members.conflictAt_of_le, resolve]

/-! ## What is reported elsewhere -/

/-- A check that says nothing about overriding. -/
def Unrelated {α : Type} (x : Except TypeError α) : Prop := ∀ e, x = .error e → e.isOverride = false

namespace Unrelated

variable {α β : Type} {x : Except TypeError α}

theorem ok (a : α) : Unrelated (.ok a) := nofun

theorem error {e : TypeError} (h : e.isOverride = false) : Unrelated (.error e : Except TypeError α) := fun _ he =>
  Except.error.inj he ▸ h

theorem bind {f : α → Except TypeError β} (hx : Unrelated x) (hf : ∀ a, Unrelated (f a)) : Unrelated (x >>= f) := by
  cases x with
  | ok a => exact hf a
  | error e => exact error (hx e rfl)

theorem ite {c : Prop} [Decidable c] {y : Except TypeError α} (hx : Unrelated x) (hy : Unrelated y) :
    Unrelated (if c then x else y) := by
  split
  · exact hx
  · exact hy

theorem filter_reported {x : Except TypeError Unit} (h : Unrelated x) :
    (reported x).filter TypeError.isOverride = [] := by
  cases x with
  | ok u => rfl
  | error e =>
    have he := h e rfl
    cases e <;> first | rfl | cases he

end Unrelated

theorem Classes.unrelated_binary (k : Classes) (op : BinOp) (a b : Ty) (l : Nat) : Unrelated (k.binary op a b l) := by
  cases op <;> exact .ite (.ok _) (.error rfl)

theorem Use.unrelated_valueType (u : Use) (l : Nat) : Unrelated (u.valueType l) := by
  unfold valueType
  split
  · exact .error rfl
  · split <;> first | exact .error rfl | exact .ok _

theorem Use.unrelated_calleeSignature (u : Use) (l : Nat) : Unrelated (u.calleeSignature l) := by
  unfold calleeSignature
  split
  · exact .error rfl
  · split <;> first | exact .error rfl | exact .ok _

theorem unrelated_methodSignature (e : Option Entry) : Unrelated (methodSignature e) := by
  unfold methodSignature
  split
  · exact .ok _
  · exact .error rfl

theorem Classes.unrelated_fieldsOf (k : Classes) (c : Ident) (e : Option Entry) : Unrelated (k.fieldsOf c e) := by
  unfold fieldsOf
  split
  · exact .ok _
  · exact .error rfl

mutual

theorem Expr.unrelated_type (k : Classes) : ∀ e : Expr, Unrelated (e.type k)
  | .int _ _ | .bool _ _ | .null _ => .ok _
  | .binary l op a b => by
    unfold Expr.type
    exact (a.unrelated_type k).bind fun _ => (b.unrelated_type k).bind fun _ => k.unrelated_binary op _ _ l
  | .not l a => by
    unfold Expr.type
    exact (a.unrelated_type k).bind fun _ => .ite (.ok _) (.error rfl)
  | .cond l c t e => by
    unfold Expr.type
    refine (c.unrelated_type k).bind fun _ => .ite ?_ (.error rfl)
    refine (t.unrelated_type k).bind fun _ => (e.unrelated_type k).bind fun _ => ?_
    split
    · exact .ok _
    · exact .error rfl
  | .print _ a => by
    unfold Expr.type
    exact a.unrelated_type k
  | .id l u => by
    unfold Expr.type
    exact u.unrelated_valueType l
  | .call l u args => by
    unfold Expr.type
    exact (u.unrelated_calleeSignature l).bind fun _ => .ite (.error rfl)
      ((unrelated_checkArgs k (fun _ => rfl) args _ _).bind fun _ => .ok _)
  | .send l _ m entry args => by
    unfold Expr.type
    exact (unrelated_methodSignature entry).bind fun _ => .ite (.error rfl)
      ((unrelated_checkArgs k (fun _ => rfl) args _ _).bind fun _ => .ok _)
  | .new l c entry args => by
    unfold Expr.type
    exact (k.unrelated_fieldsOf c entry).bind fun _ => .ite (.error rfl)
      ((unrelated_checkArgs k (fun _ => rfl) args _ _).bind fun _ => .ok _)

theorem unrelated_checkArgs (k : Classes) {wrong : Nat → TypeError} (hw : ∀ n, (wrong n).isOverride = false) :
    ∀ (es : List Expr) (n : Nat) (ps : List Ty), Unrelated (checkArgs k wrong n es ps)
  | [], _, _ => by
    unfold checkArgs
    exact .ok _
  | _ :: _, _, [] => by
    unfold checkArgs
    exact .ok _
  | e :: es, n, p :: ps => by
    unfold checkArgs
    exact (e.unrelated_type k).bind fun _ => .ite (unrelated_checkArgs k hw es _ ps) (.error (hw n))

end

theorem Expr.unrelated_checkBelow (k : Classes) (e : Expr) (ty : Ty) {wrong : TypeError}
    (hw : wrong.isOverride = false) : Unrelated (e.checkBelow k ty wrong) :=
  (e.unrelated_type k).bind fun _ => .ite (.ok _) (.error hw)

mutual

theorem Dec.filter_typeErrors (k : Classes) : ∀ d : Dec, (d.typeErrors k).filter TypeError.isOverride = []
  | .var _ _ ty v => (v.unrelated_checkBelow k ty rfl).filter_reported
  | .func _ _ ret _ locals body => by
    rw [Dec.typeErrors, List.filter_append, filter_localTypeErrors k locals,
      (body.unrelated_checkBelow k ret rfl).filter_reported]
    rfl

theorem filter_localTypeErrors (k : Classes) : ∀ ds : List Dec, (localTypeErrors k ds).filter TypeError.isOverride = []
  | [] => rfl
  | d :: ds => by
    rw [localTypeErrors, List.filter_append, d.filter_typeErrors k, filter_localTypeErrors k ds]
    rfl

end

theorem Method.filter_typeErrors (k : Classes) (m : Method) : (m.typeErrors k).filter TypeError.isOverride = [] := by
  rw [Method.typeErrors, List.filter_append, filter_localTypeErrors k m.locals,
    (m.body.unrelated_checkBelow k m.ret rfl).filter_reported]
  rfl

theorem Class.filter_overrideErrors (k : Classes) (c : Class) :
    (c.overrideErrors k).filter TypeError.isOverride = c.overrideErrors k := by
  refine List.filter_eq_self.2 fun e he => ?_
  unfold overrideErrors at he
  split at he
  · rcases List.mem_append.1 he with he | he <;> obtain ⟨x, -, rfl⟩ := List.mem_map.1 he <;> rfl
  · cases he

/-- **Overriding is reported of classes only**, after everything else. -/
theorem Class.filter_typeErrors (k : Classes) (c : Class) :
    (c.typeErrors k).filter TypeError.isOverride = c.overrideErrors k := by
  rw [Class.typeErrors, List.filter_append, c.filter_overrideErrors k, List.filter_flatMap]
  simp [Method.filter_typeErrors]

theorem Program.filter_typeErrors (k : Classes) (p : Program) :
    (p.typeErrors k).filter TypeError.isOverride = p.classes.flatMap (Class.overrideErrors k) := by
  rw [Program.typeErrors, List.filter_append, filter_localTypeErrors, List.append_nil, List.filter_flatMap]
  simp [Class.filter_typeErrors]

/-! ## Programs -/

theorem TypeText.isMethod {ts : List LinedToken} {ty : Ty} (h : TypeText ts ty) : ty.isMethod = false := by
  cases h <;> rfl

theorem BindingText.isMethod {ts : List LinedToken} {b : Binding} (h : BindingText ts b) : b.ty.isMethod = false := by
  cases h with
  | mk type => exact type.isMethod

theorem RoutineText.offset {ts : List LinedToken} {m : Method} (h : RoutineText DecText ts m) : m.offset = 0 := by
  cases h
  rfl

theorem ClassText.unplaced {ts : List LinedToken} {c : Class} (h : ClassText ts c) : c.Unplaced := by
  cases h with
  | mk parent state routines =>
    refine ⟨fun f hf => ?_, routines.forall RoutineText.offset⟩
    obtain ⟨b, hb, rfl⟩ := List.mem_map.1 hf
    exact ⟨state.forall BindingText.isMethod b hb, rfl⟩

theorem unplaced_of_parse {source : List Char} {p : Program} (hp : parse source = .ok p) :
    ∀ c ∈ p.classes, c.Unplaced := by
  obtain ⟨_, _, -, -, hs⟩ := exists_spots hp
  cases hs with
  | letIn classes decs body => exact classes.forall ClassText.unplaced
  | expr body => nofun

theorem flatMap_overrideErrors (k : Classes) : ∀ (cs : List Class) {env : Env} {n : Nat}, env.Laid n → env.AtTop →
    env.Registered → (∀ c ∈ cs, c.Unplaced) → n + declaredIn cs ≤ maxInt32 →
    (resolveClasses env cs).flatMap (Class.overrideErrors k) = (classSteps env cs).flatMap fun (env, c) =>
      overridingErrors (c.misfitFields k.hierarchy env) (c.misfitOrStrayMethods k.hierarchy env)
  | [], _, _, _, _, _, _, _ => rfl
  | c :: cs, env, n, h, ht, hr, hcs, hb => by
    obtain ⟨hc, hcs⟩ := List.forall_mem_cons.1 hcs
    rw [declaredIn, ← Nat.add_assoc] at hb
    have hnext := h.afterClass (fun f hf => (hc.fields f hf).1) (by omega)
    rw [resolveClasses, classSteps, List.flatMap_cons, List.flatMap_cons, c.overrideErrors_resolve k h hr hc (by omega),
      flatMap_overrideErrors k cs hnext (ht.afterClass c) (hr.afterClass ht c) hcs (by omega)]

theorem Program.classes_resolve (p : Program) : p.resolve.classes = resolveClasses p.initialEnv p.classes := by
  cases p <;> rfl

/-- Of what holds one way or the other, never both, that which holds the first way is a part, and the rest holds the
other way. -/
theorem filter_or_of_disjoint {α : Type} {p q : α → Bool} : ∀ {l : List α}, (∀ a ∈ l, p a = true → q a = false) →
    (l.filter p).Sublist (l.filter fun a => p a || q a) ∧
      (l.filter fun a => p a || q a).length = (l.filter p).length + (l.filter q).length
  | [], _ => ⟨.slnil, rfl⟩
  | a :: l, h => by
    obtain ⟨ha, hl⟩ := List.forall_mem_cons.1 h
    obtain ⟨hsub, hlen⟩ := filter_or_of_disjoint hl
    cases hp : p a with
    | true =>
      rw [List.filter_cons_of_pos hp, List.filter_cons_of_pos (by simp [hp]),
        List.filter_cons_of_neg (by simp [ha hp])]
      exact ⟨hsub.cons_cons a, by simp only [List.length_cons]; omega⟩
    | false =>
      cases hq : q a with
      | true =>
        rw [List.filter_cons_of_neg (by simp [hp]), List.filter_cons_of_pos (by simp [hq]), List.filter_cons_of_pos hq]
        exact ⟨hsub.cons a, by simp only [List.length_cons]; omega⟩
      | false =>
        rw [List.filter_cons_of_neg (by simp [hp]), List.filter_cons_of_neg (by simp [hp, hq]),
          List.filter_cons_of_neg (by simp [hq])]
        exact ⟨hsub, hlen⟩

theorem Members.methodStrays_of_misfits {h : Hierarchy} {s₀ s whole : Members} {m : Method}
    (hm : s.methodMisfits h s₀ m = true) : s.methodStrays h s₀ whole m = false := by
  unfold methodMisfits at hm
  unfold methodStrays
  cases hslot : s.methodSlot m.id with
  | ok off => rfl
  | error r => simp [hslot] at hm

/-- The stray methods of classes come on top of the members that do not fit. -/
theorem misfits_sublist (h : Hierarchy) : ∀ steps : List (Env × Class),
    (steps.flatMap fun (env, c) => overridingErrors (c.misfitFields h env) (c.misfitMethods h env)).Sublist
      (steps.flatMap fun (env, c) => overridingErrors (c.misfitFields h env) (c.misfitOrStrayMethods h env)) ∧
    (steps.flatMap fun (env, c) => overridingErrors (c.misfitFields h env) (c.misfitOrStrayMethods h env)).length =
      (steps.flatMap fun (env, c) => overridingErrors (c.misfitFields h env) (c.misfitMethods h env)).length +
        (steps.flatMap fun (env, c) => c.strays h env).length
  | [] => ⟨.slnil, rfl⟩
  | (env, c) :: steps => by
    obtain ⟨hsub, hlen⟩ := misfits_sublist h steps
    obtain ⟨hms, hml⟩ := filter_or_of_disjoint (l := c.methodSteps env)
      (p := fun (s, m) => s.methodMisfits h (env.inherited c) m)
      (q := fun (s, m) => s.methodStrays h (env.inherited c) (env.members c) m)
      fun (s, m) _ hm => Members.methodStrays_of_misfits hm
    have hmethods : (c.misfitMethods h env).Sublist (c.misfitOrStrayMethods h env) := hms.map Prod.snd
    have hlength : (c.misfitOrStrayMethods h env).length =
        (c.misfitMethods h env).length + (c.strays h env).length := by
      simpa [Class.misfitOrStrayMethods, Class.misfitMethods, Class.strays] using hml
    simp only [List.flatMap_cons, List.length_append, overridingErrors, List.length_map] at hlen ⊢
    refine ⟨((List.Sublist.refl _).append (hmethods.map _)).append hsub, ?_⟩
    omega

/-- **What is reported about overriding**, whatever else is wrong with a program: each accepted field or method that
overrides an inherited one which its type is not below, once, and each refused method of a class whose own methods and
inherited ones do not fit at slot 0.  Where there are no such refused methods the errors are exact. -/
theorem override_errors {source : List Char} {p : Program} (hp : parse source = .ok p)
    (hb : Text.byteLength source ≤ maxInt32) :
    (p.resolve.typeErrors p.classTable).filter TypeError.isOverride = p.misfitsAndStrays ∧
      ((p.resolve.typeErrors p.classTable).filter TypeError.isOverride = p.misfits ↔ p.strays = []) := by
  obtain ⟨-, hfew, -⟩ := parse_sound hp
  have hinitial : p.initialEnv.Registered := nofun
  have hall : (p.resolve.typeErrors p.classTable).filter TypeError.isOverride = p.misfitsAndStrays := by
    rw [p.resolve.filter_typeErrors, p.classes_resolve]
    exact flatMap_overrideErrors p.classTable p.classes (.initial _) ⟨[], rfl⟩ hinitial (unplaced_of_parse hp)
      (by omega)
  obtain ⟨hsub, hlen⟩ := misfits_sublist p.mainEnv.hierarchy (classSteps p.initialEnv p.classes)
  refine ⟨hall, ?_⟩
  rw [hall]
  constructor
  · intro heq
    have hlen : p.misfitsAndStrays.length = p.misfits.length + p.strays.length := hlen
    rw [heq] at hlen
    exact List.eq_nil_of_length_eq_zero (by omega)
  · intro hnone
    have hlen : p.misfitsAndStrays.length = p.misfits.length + p.strays.length := hlen
    rw [hnone, List.length_nil, Nat.add_zero] at hlen
    exact (hsub.eq_of_length hlen.symm).symm

/-- In a source that repeats no method the errors are exact: a field and a method that do not fit, one that fits. -/
def misfitsSource : List Char :=
  "let class A (x: int) \x7b\n  fun m: int () 1;\n  fun n: int () 2;\n\x7d\n".toList ++
    "class B extends A (x: A, y: int) \x7b\n  fun n: bool () true;\n  fun m: A () null;\n\x7d in 0;".toList

theorem misfitsSource_reported : ∃ p, parse misfitsSource = .ok p ∧ p.strays = [] ∧
    (p.resolve.typeErrors p.classTable).filter TypeError.isOverride = p.misfits ∧
    p.misfits = [.wrongField ⟨"x".toList⟩ 5, .wrongMethod ⟨"m".toList⟩ 7] := by
  have hparsed : ((parse misfitsSource).toOption.any fun p =>
      decide (p.strays.length = 0 ∧ p.misfits = [.wrongField ⟨"x".toList⟩ 5, .wrongMethod ⟨"m".toList⟩ 7])) = true := by
    decide +kernel
  obtain ⟨p, hp, hm⟩ := exists_of_any hparsed
  obtain ⟨hstrays, hmisfits⟩ := of_decide_eq_true hm
  have hnone := List.eq_nil_of_length_eq_zero hstrays
  exact ⟨p, hp, hnone, (override_errors hp (by decide +kernel)).2.2 hnone, hmisfits⟩

/-- A source where one method does not fit the one it overrides, and another one that fits is declared twice. -/
def refusedOverrideSource : List Char :=
  "let class A () \x7b\n  fun m: int () 1;\n  fun n: int () 2;\n\x7d\n".toList ++
    "class B extends A () \x7b\n  fun m: A () null;\n  fun n: int () 3;\n  fun n: int () 4;\n\x7d in 0;".toList

/-- **A refused method is reported in the place of another one**: the second `n` of the class, which is no member of it
and whose type is the inherited one. -/
theorem refusedOverrideSource_reported : ∃ p, parse refusedOverrideSource = .ok p ∧
    p.misfits = [.wrongMethod ⟨"m".toList⟩ 6] ∧
    (p.resolve.typeErrors p.classTable).filter TypeError.isOverride =
      [.wrongMethod ⟨"m".toList⟩ 6, .wrongMethod ⟨"n".toList⟩ 8] := by
  have hparsed : ((parse refusedOverrideSource).toOption.any fun p =>
      decide (p.misfits = [.wrongMethod ⟨"m".toList⟩ 6] ∧
        (p.resolve.typeErrors p.classTable).filter TypeError.isOverride =
          [.wrongMethod ⟨"m".toList⟩ 6, .wrongMethod ⟨"n".toList⟩ 8])) = true := by
    decide +kernel
  obtain ⟨p, hp, hm⟩ := exists_of_any hparsed
  exact ⟨p, hp, of_decide_eq_true hm⟩

end FoolLang
