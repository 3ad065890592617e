import FoolLang.Proofs.Values
/-!
# Subtypes — the order of types

Subtyping is transitive, and reflexive on the types without class types in them, on every hierarchy.  A type fits
another one when it is the same or below it.
-/
namespace FoolLang

/-- Neither a function nor a method. -/
def Ty.IsSimple : Ty → Prop
  | .function _ | .method _ => False
  | _ => True

mutual

/-- No class type in it. -/
def Ty.ClassFree : Ty → Prop
  | .function s | .method s => s.ClassFree
  | .cls _ => False
  | _ => True

def Signature.ClassFree : Signature → Prop
  | ⟨ps, r⟩ => allClassFree ps ∧ r.ClassFree

def allClassFree : List Ty → Prop
  | [] => True
  | t :: ts => t.ClassFree ∧ allClassFree ts

end

namespace Hierarchy

variable {h : Hierarchy} {dir : Direction} {a b c : Ty}

/-! ## Transitivity -/

theorem simpleBelow_trans (hab : h.simpleBelow a b = true) (hbc : h.simpleBelow b c = true) :
    h.simpleBelow a c = true := by
  cases a with
  | int | bool | null =>
    cases b <;> simp only [simpleBelow, Bool.false_eq_true] at hab <;> cases c <;> simp_all [simpleBelow]
  | ref C =>
    cases b with
    | ref D =>
      cases c with
      | ref E =>
        have hCD := mem_ancestors_iff.1 (of_decide_eq_true hab)
        have hDE := mem_ancestors_iff.1 (of_decide_eq_true hbc)
        exact decide_eq_true (mem_ancestors_iff.2 (hCD.trans hDE))
      | _ => cases hbc
    | _ => cases hab
  | _ => cases hab

theorem simpleBelow_isSimple (hab : h.simpleBelow a b = true) : a.IsSimple ∧ b.IsSimple := by
  unfold simpleBelow at hab
  split at hab <;> first | exact ⟨trivial, trivial⟩ | cases hab

theorem compare_up (ha : a.IsSimple) (b : Ty) : h.compare .up a b = h.simpleBelow a b := by
  cases a <;> first | exact ha.elim | (cases b <;> rfl)

theorem compare_down (ha : a.IsSimple) (b : Ty) : h.compare .down a b = h.simpleBelow b a := by
  cases a <;> first | exact ha.elim | (cases b <;> rfl)

theorem compare_trans_simple (ha : a.IsSimple) (hab : h.compare dir a b = true) (hbc : h.compare dir b c = true) :
    h.compare dir a c = true := by
  cases dir with
  | up =>
    rw [compare_up ha] at hab ⊢
    rw [compare_up (simpleBelow_isSimple hab).2] at hbc
    exact simpleBelow_trans hab hbc
  | down =>
    rw [compare_down ha] at hab ⊢
    rw [compare_down (simpleBelow_isSimple hab).1] at hbc
    exact simpleBelow_trans hbc hab

/-- What compares with a function is a function. -/
theorem compare_function {s : Signature} (hb : h.compare dir (.function s) b = true) :
    ∃ t, b = .function t ∧ h.compareSignature dir s t = true := by
  cases b with
  | function t => exact ⟨t, rfl, by rwa [compare] at hb⟩
  | _ => cases dir <;> cases hb

theorem compare_method {s : Signature} (hb : h.compare dir (.method s) b = true) :
    ∃ t, b = .method t ∧ h.compareSignature dir s t = true := by
  cases b with
  | method t => exact ⟨t, rfl, by rwa [compare] at hb⟩
  | _ => cases dir <;> cases hb

mutual

theorem compare_trans : ∀ {dir : Direction} (a : Ty) {b c : Ty}, h.compare dir a b = true →
    h.compare dir b c = true → h.compare dir a c = true
  | _, .function s, _, _, hab, hbc => by
    obtain ⟨t, rfl, hst⟩ := compare_function hab
    obtain ⟨u, rfl, htu⟩ := compare_function hbc
    rw [compare]
    exact compareSignature_trans s hst htu
  | _, .method s, _, _, hab, hbc => by
    obtain ⟨t, rfl, hst⟩ := compare_method hab
    obtain ⟨u, rfl, htu⟩ := compare_method hbc
    rw [compare]
    exact compareSignature_trans s hst htu
  | _, .int, _, _, hab, hbc | _, .bool, _, _, hab, hbc | _, .null, _, _, hab, hbc | _, .ref _, _, _, hab, hbc
  | _, .cls _, _, _, hab, hbc => compare_trans_simple trivial hab hbc

theorem compareSignature_trans : ∀ {dir : Direction} (s : Signature) {t u : Signature},
    h.compareSignature dir s t = true → h.compareSignature dir t u = true → h.compareSignature dir s u = true
  | _, ⟨ps, r⟩, ⟨qs, q⟩, ⟨us, v⟩, hst, htu => by
    rw [compareSignature, Bool.and_eq_true] at *
    exact ⟨compare_trans r hst.1 htu.1, compareAll_trans ps hst.2 htu.2⟩

theorem compareAll_trans : ∀ {dir : Direction} (ps : List Ty) {qs us : List Ty},
    h.compareAll dir ps qs = true → h.compareAll dir qs us = true → h.compareAll dir ps us = true
  | _, [], [], [], _, _ => rfl
  | _, p :: ps, q :: qs, u :: us, hpq, hqu => by
    rw [compareAll, Bool.and_eq_true] at *
    exact ⟨compare_trans p hpq.1 hqu.1, compareAll_trans ps hpq.2 hqu.2⟩

end

/-- **Subtyping is transitive.** -/
theorem isSubtype_trans (hab : h.isSubtype a b = true) (hbc : h.isSubtype b c = true) : h.isSubtype a c = true :=
  compare_trans a hab hbc

theorem isSubsignature_trans {s t u : Signature} (hst : h.isSubsignature s t = true)
    (htu : h.isSubsignature t u = true) : h.isSubsignature s u = true := compareSignature_trans s hst htu

/-! ## Reflexivity -/

theorem simpleBelow_refl (hf : a.ClassFree) (ha : a.IsSimple) : h.simpleBelow a a = true := by
  cases a with
  | ref C => exact decide_eq_true (mem_ancestors_iff.2 .refl)
  | cls l => exact hf.elim
  | function s | method s => exact ha.elim
  | _ => rfl

theorem compare_refl_simple (hf : a.ClassFree) (ha : a.IsSimple) : h.compare dir a a = true := by
  cases dir with
  | up => rw [compare_up ha, simpleBelow_refl hf ha]
  | down => rw [compare_down ha, simpleBelow_refl hf ha]

mutual

theorem compare_refl : ∀ (dir : Direction) (a : Ty), a.ClassFree → h.compare dir a a = true
  | dir, .function s, hs | dir, .method s, hs => by
    rw [compare]
    exact compareSignature_refl dir s hs
  | _, .int, ha | _, .bool, ha | _, .null, ha | _, .ref _, ha | _, .cls _, ha => compare_refl_simple ha trivial

theorem compareSignature_refl : ∀ (dir : Direction) (s : Signature), s.ClassFree → h.compareSignature dir s s = true
  | dir, ⟨ps, r⟩, ⟨hps, hr⟩ => by
    rw [compareSignature, compare_refl dir r hr, compareAll_refl dir.flip ps hps]
    rfl

theorem compareAll_refl : ∀ (dir : Direction) (ps : List Ty), allClassFree ps → h.compareAll dir ps ps = true
  | _, [], _ => rfl
  | dir, p :: ps, ⟨hp, hps⟩ => by
    rw [compareAll, compare_refl dir p hp, compareAll_refl dir ps hps]
    rfl

end

/-- **Subtyping is reflexive where there are no class types.** -/
theorem isSubtype_refl (ha : a.ClassFree) : h.isSubtype a a = true := compare_refl .up a ha

theorem isSubsignature_refl {s : Signature} (hs : s.ClassFree) : h.isSubsignature s s = true :=
  compareSignature_refl .up s hs

/-- Only signatures of one arity compare. -/
theorem length_of_compareAll {dir : Direction} : ∀ {ps qs : List Ty}, h.compareAll dir ps qs = true →
    ps.length = qs.length
  | [], [], _ => rfl
  | [], _ :: _, hc => nomatch hc
  | _ :: _, [], hc => nomatch hc
  | p :: ps, q :: qs, hc => by
    rw [compareAll, Bool.and_eq_true] at hc
    rw [List.length_cons, List.length_cons, length_of_compareAll hc.2]

theorem isSubsignature_arity {s t : Signature} (hs : h.isSubsignature s t = true) :
    s.params.length = t.params.length := by
  obtain ⟨ps, r⟩ := s
  obtain ⟨qs, q⟩ := t
  rw [isSubsignature, compareSignature, Bool.and_eq_true] at hs
  exact length_of_compareAll hs.2

end Hierarchy

/-! ## Standing for another type -/

def Ty.Fits (h : Hierarchy) (a b : Ty) : Prop := a = b ∨ h.isSubtype a b = true

def Signature.Fits (h : Hierarchy) (s t : Signature) : Prop := s = t ∨ h.isSubsignature s t = true

section

variable {h : Hierarchy} {a b c : Ty} {s t u : Signature}

theorem Ty.Fits.trans (hab : a.Fits h b) (hbc : b.Fits h c) : a.Fits h c := by
  rcases hab with rfl | hab
  · exact hbc
  · rcases hbc with rfl | hbc
    · exact .inr hab
    · exact .inr (Hierarchy.isSubtype_trans hab hbc)

theorem Signature.Fits.trans (hst : s.Fits h t) (htu : t.Fits h u) : s.Fits h u := by
  rcases hst with rfl | hst
  · exact htu
  · rcases htu with rfl | htu
    · exact .inr hst
    · exact .inr (Hierarchy.isSubsignature_trans hst htu)

theorem Ty.Fits.refines (hab : a.Fits h b) : a.Refines h b := by
  rcases hab with rfl | hab
  · exact .refl h a
  · exact Hierarchy.isSubtype_refines hab

theorem Signature.Fits.refines (hst : s.Fits h t) : s.Refines h t := by
  rcases hst with rfl | hst
  · exact .refl h s
  · exact Hierarchy.isSubsignature_refines hst

theorem Ty.Fits.below (hab : a.Fits h b) (hb : b.ClassFree) : h.isSubtype a b = true := by
  rcases hab with rfl | hab
  · exact Hierarchy.isSubtype_refl hb
  · exact hab

theorem Signature.Fits.below (hst : s.Fits h t) (ht : t.ClassFree) : h.isSubsignature s t = true := by
  rcases hst with rfl | hst
  · exact Hierarchy.isSubsignature_refl ht
  · exact hst

end

end FoolLang
