import FoolLang.Proofs.Subtypes
import Mathlib.Data.List.Dedup
import Mathlib.Data.List.Induction
/-!
# Subtype rules — what is below what

The order of types is given by rules alone (`Ty.Below`): which classes extend which is a relation, and a class is below
every class that it leads to.  Comparing two types decides the rules on every hierarchy, cyclic ones included
(`subtyping_follows_rules`), though it follows superclasses for no more steps than there are classes that have one.
The order is reflexive on the types without class types in them, transitive, and antisymmetric exactly when no two
classes are ancestors of each other (`subtyping_preorder`).
-/
namespace FoolLang

mutual

/-- `a ≤ b`, where `direct` relates a class to its superclass. -/
inductive Ty.Below (direct : Ident → Ident → Prop) : Ty → Ty → Prop
  | bool : Ty.Below direct .bool .bool
  | boolInt : Ty.Below direct .bool .int
  | int : Ty.Below direct .int .int
  | null : Ty.Below direct .null .null
  | nullRef (c : Ident) : Ty.Below direct .null (.ref c)
  | ref {c d : Ident} (h : Relation.ReflTransGen direct c d) : Ty.Below direct (.ref c) (.ref d)
  | function {s t : Signature} (h : Signature.Below direct s t) : Ty.Below direct (.function s) (.function t)
  | method {s t : Signature} (h : Signature.Below direct s t) : Ty.Below direct (.method s) (.method t)

/-- Returns are below each other in the same direction, parameters in the other. -/
inductive Signature.Below (direct : Ident → Ident → Prop) : Signature → Signature → Prop
  | intro {ps qs : List Ty} {r q : Ty} (ret : Ty.Below direct r q) (params : AllBelow direct qs ps) :
    Signature.Below direct ⟨ps, r⟩ ⟨qs, q⟩

/-- As many types, each below the one at its place. -/
inductive AllBelow (direct : Ident → Ident → Prop) : List Ty → List Ty → Prop
  | nil : AllBelow direct [] []
  | cons {p q : Ty} {ps qs : List Ty} (head : Ty.Below direct p q) (tail : AllBelow direct ps qs) :
    AllBelow direct (p :: ps) (q :: qs)

end

section

variable {direct : Ident → Ident → Prop}

mutual

/-- The rules say nothing of class types. -/
theorem Ty.Below.classFree : ∀ {a b : Ty}, Ty.Below direct a b → a.ClassFree ∧ b.ClassFree
  | _, _, .bool | _, _, .boolInt | _, _, .int | _, _, .null | _, _, .nullRef _ | _, _, .ref _ => ⟨trivial, trivial⟩
  | _, _, .function h | _, _, .method h => h.classFree

theorem Signature.Below.classFree : ∀ {s t : Signature}, Signature.Below direct s t → s.ClassFree ∧ t.ClassFree
  | _, _, .intro ret params => by
    obtain ⟨hr, hq⟩ := ret.classFree
    obtain ⟨hqs, hps⟩ := params.classFree
    exact ⟨⟨hps, hr⟩, hqs, hq⟩

theorem AllBelow.classFree : ∀ {ps qs : List Ty}, AllBelow direct ps qs → allClassFree ps ∧ allClassFree qs
  | _, _, .nil => ⟨trivial, trivial⟩
  | _, _, .cons head tail => by
    obtain ⟨hp, hq⟩ := head.classFree
    obtain ⟨hps, hqs⟩ := tail.classFree
    exact ⟨⟨hp, hps⟩, hq, hqs⟩

end

/-- No two classes lead to each other. -/
def OneWay (direct : Ident → Ident → Prop) : Prop :=
  ∀ c d, Relation.ReflTransGen direct c d → Relation.ReflTransGen direct d c → c = d

mutual

/-- **The rules are antisymmetric where classes are.** -/
theorem Ty.Below.antisymm (hd : OneWay direct) : ∀ {a b : Ty}, Ty.Below direct a b → Ty.Below direct b a → a = b
  | _, _, .bool, _ | _, _, .int, _ | _, _, .null, _ => rfl
  | _, _, .ref hcd, .ref hdc => congrArg Ty.ref (hd _ _ hcd hdc)
  | _, _, .function hst, .function hts => congrArg Ty.function (hst.antisymm hd hts)
  | _, _, .method hst, .method hts => congrArg Ty.method (hst.antisymm hd hts)

theorem Signature.Below.antisymm (hd : OneWay direct) : ∀ {s t : Signature}, Signature.Below direct s t →
    Signature.Below direct t s → s = t
  | _, _, .intro ret params, .intro ret' params' => by rw [ret.antisymm hd ret', params.antisymm hd params']

theorem AllBelow.antisymm (hd : OneWay direct) : ∀ {ps qs : List Ty}, AllBelow direct ps qs →
    AllBelow direct qs ps → ps = qs
  | _, _, .nil, _ => rfl
  | _, _, .cons head tail, .cons head' tail' => by rw [head.antisymm hd head', tail.antisymm hd tail']

end

end

/-- A relation read in a direction. -/
def Direction.Relates {α : Type} (r : α → α → Prop) : Direction → α → α → Prop
  | .up, a, b => r a b
  | .down, a, b => r b a

theorem Direction.relates_flip {α : Type} (r : α → α → Prop) (dir : Direction) (a b : α) :
    dir.flip.Relates r a b ↔ dir.Relates r b a := by
  cases dir <;> exact Iff.rfl

namespace Hierarchy

variable {h : Hierarchy} {a b : Ty}

/-- The rules where classes extend what a hierarchy says. -/
theorem below_of_simpleBelow (hab : h.simpleBelow a b = true) : Ty.Below (fun c d => h.superOf c = some d) a b := by
  unfold simpleBelow at hab
  split at hab
  · exact .bool
  · exact .boolInt
  · exact .int
  · exact .null
  · exact .nullRef _
  · exact .ref (mem_ancestors_iff.1 (of_decide_eq_true hab))
  · cases hab

theorem simpleBelow_of_below (hs : a.IsSimple ∨ b.IsSimple) (hab : Ty.Below (fun c d => h.superOf c = some d) a b) :
    h.simpleBelow a b = true := by
  cases hab with
  | ref hcd => exact decide_eq_true (mem_ancestors_iff.2 hcd)
  | function | method => exact hs.elim False.elim False.elim
  | _ => rfl

theorem compare_iff_simple {dir : Direction} (ha : a.IsSimple) :
    h.compare dir a b = true ↔ dir.Relates (Ty.Below fun c d => h.superOf c = some d) a b := by
  cases dir with
  | up =>
    rw [compare_up ha]
    exact ⟨below_of_simpleBelow, simpleBelow_of_below (.inl ha)⟩
  | down =>
    rw [compare_down ha]
    exact ⟨below_of_simpleBelow, simpleBelow_of_below (.inr ha)⟩

mutual

/-- **Comparing types decides the rules.**  The recursion is on the first type; at parameters the sides change, and so
does the direction. -/
theorem compare_iff : ∀ (dir : Direction) (a b : Ty),
    h.compare dir a b = true ↔ dir.Relates (Ty.Below fun c d => h.superOf c = some d) a b
  | dir, .function s, b => by
    constructor
    · intro hb
      obtain ⟨t, rfl, hst⟩ := compare_function hb
      have hrules := (compareSignature_iff dir s t).1 hst
      cases dir <;> exact .function hrules
    · intro hb
      obtain ⟨t, rfl, hst⟩ : ∃ t, b = .function t ∧
          dir.Relates (Signature.Below fun c d => h.superOf c = some d) s t := by
        cases dir <;> cases hb <;> exact ⟨_, rfl, ‹_›⟩
      rw [compare]
      exact (compareSignature_iff dir s t).2 hst
  | dir, .method s, b => by
    constructor
    · intro hb
      obtain ⟨t, rfl, hst⟩ := compare_method hb
      have hrules := (compareSignature_iff dir s t).1 hst
      cases dir <;> exact .method hrules
    · intro hb
      obtain ⟨t, rfl, hst⟩ : ∃ t, b = .method t ∧
          dir.Relates (Signature.Below fun c d => h.superOf c = some d) s t := by
        cases dir <;> cases hb <;> exact ⟨_, rfl, ‹_›⟩
      rw [compare]
      exact (compareSignature_iff dir s t).2 hst
  | _, .int, _ | _, .bool, _ | _, .null, _ | _, .ref _, _ | _, .cls _, _ => compare_iff_simple trivial

theorem compareSignature_iff : ∀ (dir : Direction) (s t : Signature),
    h.compareSignature dir s t = true ↔ dir.Relates (Signature.Below fun c d => h.superOf c = some d) s t
  | dir, ⟨ps, r⟩, ⟨qs, q⟩ => by
    rw [compareSignature, Bool.and_eq_true, compare_iff dir r q, compareAll_iff dir.flip ps qs,
      Direction.relates_flip]
    constructor
    · rintro ⟨hret, hparams⟩
      cases dir <;> exact .intro hret hparams
    · intro hst
      cases dir <;> cases hst <;> exact ⟨‹_›, ‹_›⟩

theorem compareAll_iff : ∀ (dir : Direction) (ps qs : List Ty),
    h.compareAll dir ps qs = true ↔ dir.Relates (AllBelow fun c d => h.superOf c = some d) ps qs
  | dir, [], [] => by cases dir <;> exact iff_of_true rfl .nil
  | dir, [], _ :: _ | dir, _ :: _, [] => by cases dir <;> exact iff_of_false nofun nofun
  | dir, p :: ps, q :: qs => by
    rw [compareAll, Bool.and_eq_true, compare_iff dir p q, compareAll_iff dir ps qs]
    constructor
    · rintro ⟨hp, hps⟩
      cases dir <;> exact .cons hp hps
    · intro hpq
      cases dir <;> cases hpq <;> exact ⟨‹_›, ‹_›⟩

end

theorem isSubtype_iff (a b : Ty) : h.isSubtype a b = true ↔ Ty.Below (fun c d => h.superOf c = some d) a b :=
  compare_iff .up a b

theorem isSubsignature_iff (s t : Signature) :
    h.isSubsignature s t = true ↔ Signature.Below (fun c d => h.superOf c = some d) s t :=
  compareSignature_iff .up s t

theorem isSubtype_self_iff : h.isSubtype a a = true ↔ a.ClassFree :=
  ⟨fun ha => ((isSubtype_iff a a).1 ha).classFree.1, isSubtype_refl⟩

theorem isSubtype_antisymm (hd : OneWay fun c d => h.superOf c = some d) (hab : h.isSubtype a b = true)
    (hba : h.isSubtype b a = true) : a = b :=
  ((isSubtype_iff a b).1 hab).antisymm hd ((isSubtype_iff b a).1 hba)

/-! ## Declared hierarchies -/

/-- What is known when superclasses were declared one after the other. -/
def ofDeclarations (ds : List (Ident × Ident)) : Hierarchy := ds.foldl (fun h d => h.declare d.1 d.2) .empty

theorem ofDeclarations_concat (ds : List (Ident × Ident)) (d : Ident × Ident) :
    ofDeclarations (ds ++ [d]) = (ofDeclarations ds).declare d.1 d.2 := by
  rw [ofDeclarations, List.foldl_append]
  rfl

end Hierarchy

/-- `s` is the superclass that is declared last for `c`. -/
def DeclaredLast (ds : List (Ident × Ident)) (c s : Ident) : Prop :=
  ∃ before after, ds = before ++ (c, s) :: after ∧ ∀ d ∈ after, d.1 ≠ c

theorem declaredLast_concat {ds : List (Ident × Ident)} {d : Ident × Ident} {c s : Ident} :
    DeclaredLast (ds ++ [d]) c s ↔ if c = d.1 then s = d.2 else DeclaredLast ds c s := by
  constructor
  · rintro ⟨before, after, he, hafter⟩
    rcases List.eq_nil_or_concat after with rfl | ⟨after, x, rfl⟩
    · obtain ⟨-, rfl⟩ : ds = before ∧ d = (c, s) := by simpa using he
      rw [if_pos rfl]
    · have he' : ds ++ [d] = (before ++ (c, s) :: after) ++ [x] := by simpa using he
      obtain ⟨hds, hx⟩ := List.append_inj' he' rfl
      obtain rfl := (List.cons.inj hx).1
      rw [if_neg fun hc => hafter d (by simp) hc.symm]
      exact ⟨before, after, hds, fun x hx => hafter x (by simp [hx])⟩
  · split
    · rintro rfl
      subst_vars
      exact ⟨ds, [], rfl, fun _ hx => nomatch hx⟩
    · rename_i hc
      rintro ⟨before, after, rfl, hafter⟩
      refine ⟨before, after ++ [d], by simp, fun x hx => ?_⟩
      rcases List.mem_append.1 hx with hx | hx
      · exact hafter x hx
      · rw [List.mem_singleton.1 hx]
        exact Ne.symm hc

namespace Hierarchy

/-- **A class has the superclass that was declared last for it.** -/
theorem superOf_ofDeclarations (ds : List (Ident × Ident)) (c s : Ident) :
    (ofDeclarations ds).superOf c = some s ↔ DeclaredLast ds c s := by
  induction ds using List.reverseRecOn with
  | nil => exact iff_of_false nofun fun ⟨before, _, he, _⟩ => by cases before <;> cases he
  | append_singleton ds d ih =>
    rw [ofDeclarations_concat, superOf_declare, declaredLast_concat]
    split
    · rw [Option.some.injEq, eq_comm]
    · exact ih

theorem keys_declare (h : Hierarchy) (c s : Ident) :
    (h.declare c s).supers.map Prod.fst = c :: (h.supers.map Prod.fst).filter (· ≠ c) := by
  rw [declare, List.map_cons, List.filter_map]
  rfl

theorem keys_ofDeclarations (ds : List (Ident × Ident)) :
    ((ofDeclarations ds).supers.map Prod.fst).Nodup ∧
      ∀ c, c ∈ (ofDeclarations ds).supers.map Prod.fst ↔ c ∈ ds.map Prod.fst := by
  induction ds using List.reverseRecOn with
  | nil => exact ⟨List.nodup_nil, fun _ => Iff.rfl⟩
  | append_singleton ds d ih =>
    obtain ⟨hnodup, hmem⟩ := ih
    rw [ofDeclarations_concat, keys_declare]
    refine ⟨List.nodup_cons.2 ⟨by simp, hnodup.filter _⟩, fun c => ?_⟩
    rw [List.mem_cons, List.mem_filter, hmem c, List.map_append, List.mem_append]
    by_cases hc : c = d.1 <;> simp [hc]

/-- There are as many pairs as classes with a declared superclass. -/
theorem length_ofDeclarations (ds : List (Ident × Ident)) :
    (ofDeclarations ds).supers.length = (ds.map Prod.fst).dedup.length := by
  obtain ⟨hnodup, hmem⟩ := keys_ofDeclarations ds
  have hperm : ((ofDeclarations ds).supers.map Prod.fst).Perm (ds.map Prod.fst).dedup :=
    (List.perm_ext_iff_of_nodup hnodup (List.nodup_dedup _)).2 fun c => by rw [hmem c, List.mem_dedup]
  rw [← hperm.length_eq, List.length_map]

theorem length_chain_le (h : Hierarchy) : ∀ (n : Nat) (c : Ident), (h.chain n c).length ≤ n
  | 0, _ => Nat.le_refl 0
  | n + 1, c => by
    rw [chain, List.length_cons, Nat.add_le_add_iff_right]
    split
    · exact length_chain_le h n _
    · exact Nat.zero_le n

end Hierarchy

/-- **Subtyping is what the rules say**, whatever superclasses were declared and in whatever order, be it in a circle:
a class extends the superclass that was declared last for it, and the walk along superclasses, of one class more than
have a declared superclass, meets every class that they lead to. -/
theorem subtyping_follows_rules (ds : List (Ident × Ident)) :
    (∀ a b, (Hierarchy.ofDeclarations ds).isSubtype a b = true ↔ Ty.Below (DeclaredLast ds) a b) ∧
    (∀ s t, (Hierarchy.ofDeclarations ds).isSubsignature s t = true ↔ Signature.Below (DeclaredLast ds) s t) ∧
    (∀ c s, (Hierarchy.ofDeclarations ds).superOf c = some s ↔ DeclaredLast ds c s) ∧
    (∀ c, (Hierarchy.ofDeclarations ds).ancestors c =
        (Hierarchy.ofDeclarations ds).chain ((ds.map Prod.fst).dedup.length + 1) c ∧
      ((Hierarchy.ofDeclarations ds).ancestors c).length ≤ (ds.map Prod.fst).dedup.length + 1 ∧
      ∀ d, d ∈ (Hierarchy.ofDeclarations ds).ancestors c ↔ Relation.ReflTransGen (DeclaredLast ds) c d) := by
  have hdirect : (fun c s => (Hierarchy.ofDeclarations ds).superOf c = some s) = DeclaredLast ds := by
    funext c s
    exact propext (Hierarchy.superOf_ofDeclarations ds c s)
  have hchain : ∀ c, (Hierarchy.ofDeclarations ds).ancestors c =
      (Hierarchy.ofDeclarations ds).chain ((ds.map Prod.fst).dedup.length + 1) c := fun c => by
    rw [Hierarchy.ancestors, Hierarchy.length_ofDeclarations]
  refine ⟨?_, ?_, Hierarchy.superOf_ofDeclarations ds, fun c => ⟨hchain c, ?_, fun d => ?_⟩⟩
  · rw [← hdirect]
    exact Hierarchy.isSubtype_iff
  · rw [← hdirect]
    exact Hierarchy.isSubsignature_iff
  · rw [hchain c]
    exact Hierarchy.length_chain_le _ _ c
  · rw [← hdirect]
    exact Hierarchy.mem_ancestors_iff

/-- Two classes that extend each other, and one that extends the first. -/
def circle : Hierarchy :=
  .ofDeclarations [(⟨"A".toList⟩, ⟨"B".toList⟩), (⟨"B".toList⟩, ⟨"A".toList⟩), (⟨"C".toList⟩, ⟨"A".toList⟩)]

/-- The walk goes round once and a class further. -/
example : circle.ancestors ⟨"C".toList⟩ = [⟨"C".toList⟩, ⟨"A".toList⟩, ⟨"B".toList⟩, ⟨"A".toList⟩] := by decide

/-- **Subtyping is a preorder on the types without class types in them, and an order exactly when no two classes are
ancestors of each other.**  It is transitive on all types, and no class type is below anything, not even itself. -/
theorem subtyping_preorder (h : Hierarchy) :
    (∀ a, h.isSubtype a a = true ↔ a.ClassFree) ∧
    (∀ a b c, h.isSubtype a b = true → h.isSubtype b c = true → h.isSubtype a c = true) ∧
    ((∀ a b, a.ClassFree → b.ClassFree → h.isSubtype a b = true → h.isSubtype b a = true → a = b) ↔
      ¬ ∃ c d, c ≠ d ∧ d ∈ h.ancestors c ∧ c ∈ h.ancestors d) := by
  refine ⟨fun _ => Hierarchy.isSubtype_self_iff, fun _ _ _ => Hierarchy.isSubtype_trans, ?_⟩
  constructor
  · rintro hanti ⟨c, d, hne, hcd, hdc⟩
    have href := hanti (.ref c) (.ref d) trivial trivial (Hierarchy.isSubtype_ref.2 (Hierarchy.mem_ancestors_iff.1 hcd))
      (Hierarchy.isSubtype_ref.2 (Hierarchy.mem_ancestors_iff.1 hdc))
    exact hne (Ty.ref.inj href)
  · intro hnone a b _ _
    refine Hierarchy.isSubtype_antisymm fun c d hcd hdc => by_contra fun hne => hnone ?_
    exact ⟨c, d, hne, Hierarchy.mem_ancestors_iff.2 hcd, Hierarchy.mem_ancestors_iff.2 hdc⟩

/-- Functions from functions on objects of one class to objects of another. -/
def functional (param ret : String) : Ty := .function ⟨[.function ⟨[.ref ⟨param.toList⟩], .int⟩], .ref ⟨ret.toList⟩⟩

/-- On a circle functions are ordered through two parameters, and two types that are below each other differ. -/
theorem circle_preordered :
    (functional "C" "A").ClassFree ∧ circle.isSubtype (functional "C" "A") (functional "C" "A") = true ∧
    circle.isSubtype (functional "C" "C") (functional "A" "B") = true ∧
    circle.isSubtype (functional "A" "B") (functional "B" "A") = true ∧
    circle.isSubtype (functional "C" "C") (functional "B" "A") = true ∧
    ¬ ∀ a b : Ty, a.ClassFree → b.ClassFree → circle.isSubtype a b = true → circle.isSubtype b a = true → a = b := by
  obtain ⟨hrefl, htrans, hanti⟩ := subtyping_preorder circle
  have hfree : (functional "C" "A").ClassFree := ⟨⟨⟨⟨trivial, trivial⟩, trivial⟩, trivial⟩, trivial⟩
  have hup : circle.isSubtype (functional "C" "C") (functional "A" "B") = true := by decide +kernel
  have hround : circle.isSubtype (functional "A" "B") (functional "B" "A") = true := by decide +kernel
  refine ⟨hfree, (hrefl _).2 hfree, hup, hround, htrans _ _ _ hup hround, fun h => hanti.1 h ?_⟩
  exact ⟨⟨"A".toList⟩, ⟨"B".toList⟩, by decide, by decide, by decide⟩

end FoolLang
