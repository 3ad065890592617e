import FoolLang.Proofs.Evaluate
import FoolLang.Typing
import Mathlib.Data.List.Perm.Subperm
import Mathlib.Logic.Relation
/-!
# Values — the values of a type

A class is below another one when superclasses lead there; following one step more than there are classes with a
superclass finds all of them (`mem_ancestors_iff`).  A reference has a class type when the object was created as a
class below it.  What has a type has every type above it, and the least common supertype has the values of both.
-/
namespace FoolLang

namespace Hierarchy

variable {h : Hierarchy} {C D E : Ident}

def Below (h : Hierarchy) : Ident → Ident → Prop := Relation.ReflTransGen fun c d => h.superOf c = some d

/-- A way up, by the classes on it but the last. -/
inductive Walk (h : Hierarchy) : Ident → List Ident → Ident → Prop
  | stay (C : Ident) : Walk h C [] C
  | up {D E C : Ident} {l : List Ident} : h.superOf D = some E → Walk h E l C → Walk h D (D :: l) C

theorem Walk.mem_chain {l : List Ident} (hw : h.Walk D l C) : ∀ n, l.length < n → C ∈ h.chain n D := by
  induction hw with
  | stay C =>
    rintro (_ | n) hn
    · exact absurd hn (Nat.not_lt_zero _)
    · exact List.mem_cons_self
  | up hs _ ih =>
    rintro (_ | n) hn
    · exact absurd hn (Nat.not_lt_zero _)
    · rw [chain, hs]
      exact List.mem_cons_of_mem _ (ih n (Nat.lt_of_succ_lt_succ hn))

theorem Walk.from_mem {l : List Ident} (hw : h.Walk E l C) (hd : D ∈ l) : ∃ l', l' <:+ l ∧ h.Walk D l' C := by
  induction hw with
  | stay C => cases hd
  | up hs hw ih =>
    rcases List.mem_cons.1 hd with rfl | hd
    · exact ⟨_, List.suffix_refl _, .up hs hw⟩
    · obtain ⟨l', hl, hw'⟩ := ih hd
      exact ⟨l', hl.trans (List.suffix_cons _ _), hw'⟩

theorem Walk.subset {l : List Ident} (hw : h.Walk D l C) : l ⊆ h.supers.map Prod.fst := by
  induction hw with
  | stay C => exact List.nil_subset _
  | @up D E C l hs _ ih =>
    obtain ⟨l₁, l₂, he, -⟩ := List.lookup_eq_some_iff.1 hs
    refine List.cons_subset.2 ⟨?_, ih⟩
    rw [he]
    simp

/-- A way up can be walked without meeting a class twice. -/
theorem Below.exists_walk (hb : h.Below D C) : ∃ l, l.Nodup ∧ h.Walk D l C := by
  induction hb using Relation.ReflTransGen.head_induction_on with
  | refl => exact ⟨[], List.nodup_nil, .stay C⟩
  | @head D E hs _ ih =>
    obtain ⟨l, hn, hw⟩ := ih
    by_cases hd : D ∈ l
    · obtain ⟨l', hl, hw'⟩ := hw.from_mem hd
      exact ⟨l', hn.sublist hl.sublist, hw'⟩
    · exact ⟨D :: l, List.nodup_cons.2 ⟨hd, hn⟩, .up hs hw⟩

theorem below_of_mem_chain : ∀ (n : Nat) (D : Ident), C ∈ h.chain n D → h.Below D C
  | 0, _, hc => nomatch hc
  | n + 1, D, hc => by
    rcases List.mem_cons.1 hc with rfl | hc
    · exact .refl
    · split at hc
      · rename_i s hs
        exact .head hs (below_of_mem_chain n s hc)
      · cases hc

/-- What comes later on a walk is reached from what comes before it. -/
theorem pairwise_chain (h : Hierarchy) : ∀ (n : Nat) (c : Ident),
    (h.chain n c).Pairwise (Relation.TransGen fun c d => h.superOf c = some d)
  | 0, _ => .nil
  | n + 1, c => by
    rw [chain]
    cases hs : h.superOf c with
    | none => exact List.pairwise_singleton _ _
    | some s =>
      refine List.pairwise_cons.2 ⟨fun x hx => ?_, pairwise_chain h n s⟩
      exact .head' hs (below_of_mem_chain n s hx)

/-- **The ancestors of a class are the classes above it.**  A way that meets no class twice is no longer than there are
classes with a superclass. -/
theorem mem_ancestors_iff : C ∈ h.ancestors D ↔ h.Below D C := by
  refine ⟨below_of_mem_chain _ D, fun hb => ?_⟩
  obtain ⟨l, hn, hw⟩ := hb.exists_walk
  have hlen := (List.subperm_of_subset hn hw.subset).length_le
  rw [List.length_map] at hlen
  exact hw.mem_chain _ (Nat.lt_succ_of_le hlen)

theorem isSubtype_ref : h.isSubtype (.ref D) (.ref C) = true ↔ h.Below D C := by
  simp [isSubtype, compare, simpleBelow, mem_ancestors_iff]

end Hierarchy

/-! ## Types of values -/

/-- The objects of one world are the same in another one. -/
def World.Grows (w w' : World) : Prop := ∀ a o, w.objects.lookup a = some o → w'.objects.lookup a = some o

theorem World.Grows.refl (w : World) : w.Grows w := fun _ _ h => h

theorem World.Grows.trans {w₁ w₂ w₃ : World} (h : w₁.Grows w₂) (h' : w₂.Grows w₃) : w₁.Grows w₃ :=
  fun a o ho => h' a o (h a o ho)

/-- A value has a type.  A boolean is an integer too, and no value is a function, a method or a class. -/
def Value.Has (h : Hierarchy) (w : World) : Value → Ty → Prop
  | .int _, .int | .bool _, .int | .bool _, .bool | .null, .null | .null, .ref _ => True
  | .ref a, .ref c => ∃ o, w.objects.lookup a = some o ∧ h.Below o.cls c
  | _, _ => False

/-- Every value of the first type has the second one. -/
def Ty.Refines (h : Hierarchy) (a b : Ty) : Prop := ∀ w v, Value.Has h w v a → Value.Has h w v b

/-- A routine of the first signature can stand for one of the second. -/
structure Signature.Refines (h : Hierarchy) (s t : Signature) : Prop where
  params : List.Forall₂ (fun p q => q.Refines h p) s.params t.params
  ret : s.ret.Refines h t.ret

section

variable {h : Hierarchy} {w w' : World} {v : Value} {a b t : Ty}

theorem Value.Has.grows (hv : v.Has h w t) (hw : w.Grows w') : v.Has h w' t := by
  cases v <;> cases t <;> try exact hv
  obtain ⟨o, ho, hb⟩ := hv
  exact ⟨o, hw _ o ho, hb⟩

theorem Value.Has.bool (hv : v.Has h w .bool) : ∃ b, v = .bool b := by
  cases v with
  | bool b => exact ⟨b, rfl⟩
  | _ => exact hv.elim

theorem Value.Has.int (hv : v.Has h w .int) (w₁ : World) : v.number w₁ = .ok v.word w₁ := by
  cases v with
  | int n => rfl
  | bool b => rfl
  | _ => exact hv.elim

theorem Value.Has.ref {c : Ident} (hv : v.Has h w (.ref c)) :
    v = .null ∨ ∃ a o, v = .ref a ∧ w.objects.lookup a = some o ∧ h.Below o.cls c := by
  cases v with
  | null => exact .inl rfl
  | ref a =>
    obtain ⟨o, ho, hb⟩ := hv
    exact .inr ⟨a, o, rfl, ho, hb⟩
  | _ => exact hv.elim

theorem Ty.Refines.refl (h : Hierarchy) (t : Ty) : t.Refines h t := fun _ _ hv => hv

theorem Signature.Refines.refl (h : Hierarchy) (s : Signature) : s.Refines h s :=
  ⟨List.forall₂_same.2 fun p _ => .refl h p, .refl h _⟩

theorem Signature.Refines.args {s₁ s₂ : Signature} (hs : s₁.Refines h s₂) {vs : List Value}
    (hv : List.Forall₂ (fun v t => v.Has h w t) vs s₂.params) : List.Forall₂ (fun v t => v.Has h w t) vs s₁.params := by
  obtain ⟨hp, -⟩ := hs
  revert hp hv
  generalize s₁.params = ps, s₂.params = qs
  intro hv hp
  induction hp generalizing vs with
  | nil => exact hv
  | cons hpq _ ih =>
    cases hv with
    | cons hv hvs => exact .cons (hpq _ _ hv) (ih hvs)

theorem Hierarchy.simpleBelow_refines (hs : h.simpleBelow a b = true) : a.Refines h b := by
  intro w v hv
  unfold Hierarchy.simpleBelow at hs
  split at hs <;> first | exact hv | (cases hs; done) | skip
  · cases v <;> trivial
  · cases v <;> trivial
  · rename_i c d
    rcases hv.ref with rfl | ⟨a, o, rfl, ho, hb⟩
    · trivial
    · exact ⟨o, ho, hb.trans (Hierarchy.mem_ancestors_iff.1 (of_decide_eq_true hs))⟩

/-- **Subsumption**: what has a type has every type above it. -/
theorem Hierarchy.isSubtype_refines (hs : h.isSubtype a b = true) : a.Refines h b := by
  unfold Hierarchy.isSubtype at hs
  rw [Hierarchy.compare.eq_def] at hs
  split at hs
  · intro w v hv
    cases v <;> exact hv.elim
  · intro w v hv
    cases v <;> exact hv.elim
  · exact simpleBelow_refines hs

mutual

/-- Going down is going up with the types exchanged. -/
theorem Hierarchy.compare_flip (h : Hierarchy) (dir : Direction) : ∀ a b : Ty,
    h.compare dir.flip a b = h.compare dir b a
  | .function s, .function t => by
    rw [Hierarchy.compare, Hierarchy.compare]
    exact compareSignature_flip h dir s t
  | .method s, .method t => by
    rw [Hierarchy.compare, Hierarchy.compare]
    exact compareSignature_flip h dir s t
  | .int, b | .bool, b | .null, b | .ref _, b | .cls _, b => by cases b <;> cases dir <;> rfl
  | .function _, .int | .function _, .bool | .function _, .null | .function _, .ref _ | .function _, .method _
  | .function _, .cls _ => by cases dir <;> rfl
  | .method _, .int | .method _, .bool | .method _, .null | .method _, .ref _ | .method _, .function _
  | .method _, .cls _ => by cases dir <;> rfl

theorem Hierarchy.compareSignature_flip (h : Hierarchy) (dir : Direction) : ∀ s t : Signature,
    h.compareSignature dir.flip s t = h.compareSignature dir t s
  | ⟨ps, r⟩, ⟨qs, q⟩ => by
    rw [Hierarchy.compareSignature, Hierarchy.compareSignature, compare_flip h dir r q,
      compareAll_flip h dir.flip ps qs]

theorem Hierarchy.compareAll_flip (h : Hierarchy) (dir : Direction) : ∀ ps qs : List Ty,
    h.compareAll dir.flip ps qs = h.compareAll dir qs ps
  | [], [] => rfl
  | [], _ :: _ => rfl
  | _ :: _, [] => rfl
  | p :: ps, q :: qs => by
    rw [Hierarchy.compareAll, Hierarchy.compareAll, compare_flip h dir p q, compareAll_flip h dir ps qs]

end

theorem Hierarchy.compareAll_refines : ∀ {ps qs : List Ty}, h.compareAll .down ps qs = true →
    List.Forall₂ (fun p q => q.Refines h p) ps qs
  | [], [], _ => .nil
  | [], _ :: _, hc => nomatch hc
  | _ :: _, [], hc => nomatch hc
  | p :: ps, q :: qs, hc => by
    rw [Hierarchy.compareAll, Bool.and_eq_true] at hc
    obtain ⟨hp, hps⟩ := hc
    rw [show Direction.down = Direction.flip .up from rfl, compare_flip] at hp
    exact .cons (isSubtype_refines hp) (compareAll_refines hps)

/-- **An overriding method can stand for the one it overrides.** -/
theorem Hierarchy.isSubsignature_refines {s t : Signature} (hs : h.isSubsignature s t = true) : s.Refines h t := by
  obtain ⟨ps, r⟩ := s
  obtain ⟨qs, q⟩ := t
  rw [Hierarchy.isSubsignature, Hierarchy.compareSignature, Bool.and_eq_true] at hs
  exact ⟨compareAll_refines hs.2, isSubtype_refines hs.1⟩

/-- **The values of both branches of a conditional have its type.** -/
theorem Hierarchy.leastCommon_refines (hl : h.leastCommon a b = some t) : a.Refines h t ∧ b.Refines h t := by
  unfold Hierarchy.leastCommon at hl
  split at hl
  · rename_i hi
    rw [Bool.and_eq_true] at hi
    split at hl
    · cases hl
      exact ⟨.refl h _, .refl h _⟩
    · cases hl
      exact ⟨isSubtype_refines hi.1, isSubtype_refines hi.2⟩
  · split at hl
    · cases hl
      exact ⟨.refl h _, .refl h _⟩
    · cases hl
      exact ⟨simpleBelow_refines rfl, .refl h _⟩
    · cases hl
      exact ⟨.refl h _, simpleBelow_refines rfl⟩
    · rename_i c d
      obtain ⟨x, hx, rfl⟩ := Option.map_eq_some_iff.1 hl
      have hd := List.find?_some hx
      exact ⟨simpleBelow_refines (decide_eq_true (List.mem_of_find?_eq_some hx)), isSubtype_refines hd⟩
    · cases hl

end

end FoolLang
