import FoolLang.Proofs.Ancestry
import FoolLang.Proofs.SubtypeRules
/-!
# Joins — least common supertypes

The type of a conditional is the least type above both branches (`Hierarchy.Join`).  For two classes it is the first
ancestor of one that the other is below: whatever is above both classes is an ancestor of the first too, so the walk
meets it there or later.  On a circle two types can both be least; they are below each other then
(`leastCommon_is_join`).
-/
namespace FoolLang

/-- The type of a value: an integer, a boolean, `null` or a reference. -/
def Ty.IsData : Ty → Prop
  | .int | .bool | .null | .ref _ => True
  | _ => False

namespace Hierarchy

variable {h : Hierarchy} {c d x : Ident} {a b t u : Ty}

/-- `t` is above `a` and `b`, and below all that is above both. -/
structure Join (h : Hierarchy) (a b t : Ty) : Prop where
  left : h.isSubtype a t = true
  right : h.isSubtype b t = true
  least : ∀ u, h.isSubtype a u = true → h.isSubtype b u = true → h.isSubtype t u = true

theorem Join.symm (hj : h.Join a b t) : h.Join b a t := ⟨hj.right, hj.left, fun u hb ha => hj.least u ha hb⟩

/-- Two joins of the same types are below each other. -/
theorem Join.below (ht : h.Join a b t) (hu : h.Join a b u) : h.isSubtype t u = true := ht.least u hu.left hu.right

/-! ## Classes -/

theorem find_ancestor_join (hx : (h.ancestors c).find? (fun x => h.isSubtype (.ref d) (.ref x)) = some x) :
    h.Join (.ref c) (.ref d) (.ref x) where
  left := isSubtype_ref.2 (mem_ancestors_iff.1 (List.mem_of_find?_eq_some hx))
  right := by simpa using List.find?_some hx
  least u hc hd := by
    obtain ⟨-, before, after, hsplit, hbefore⟩ := List.find?_eq_some_iff_append.1 hx
    have hdown : (h.ancestors c).Pairwise _ := pairwise_chain h _ c
    cases (isSubtype_iff _ _).1 hc with
    | @ref _ e hce =>
      -- an ancestor that is above the other class is not among those passed by
      have hmem : e ∈ h.ancestors c := mem_ancestors_iff.2 hce
      rw [hsplit] at hmem hdown
      rcases List.mem_append.1 hmem with he | he
      · exact absurd hd (by simpa using hbefore e he)
      · rcases List.mem_cons.1 he with rfl | he
        · exact isSubtype_ref.2 .refl
        · have hlater := (List.pairwise_cons.1 (List.pairwise_append.1 hdown).2.1).1 e he
          exact isSubtype_ref.2 hlater.to_reflTransGen

/-! ## All types of values -/

theorem isSubtype_int (ha : h.isSubtype a .int = true) : a = .bool ∨ a = .int := by
  cases (isSubtype_iff _ _).1 ha with
  | boolInt => exact .inl rfl
  | int => exact .inr rfl

/-- **What is found is a join.**  The cases are those of the search. -/
theorem leastCommon_join (ht : h.leastCommon a b = some t) : h.Join a b t := by
  have hrefl : ∀ {u : Ty}, u.ClassFree → h.isSubtype u u = true := isSubtype_refl
  unfold leastCommon at ht
  split at ht
  · rename_i hints
    obtain ⟨ha, hb⟩ := Bool.and_eq_true_iff.1 hints
    split at ht
    · cases ht
      exact ⟨hrefl trivial, hrefl trivial, fun _ hu _ => hu⟩
    · rename_i hnot
      cases ht
      refine ⟨ha, hb, fun u hau hbu => ?_⟩
      rcases isSubtype_int ha with rfl | rfl
      · rcases isSubtype_int hb with rfl | rfl
        · exact absurd rfl (hnot rfl)
        · exact hbu
      · exact hau
  · split at ht
    · cases ht
      exact ⟨hrefl trivial, hrefl trivial, fun _ hu _ => hu⟩
    · cases ht
      exact ⟨rfl, hrefl trivial, fun _ _ hu => hu⟩
    · cases ht
      exact ⟨hrefl trivial, rfl, fun _ hu _ => hu⟩
    · obtain ⟨x, hx, rfl⟩ := Option.map_eq_some_iff.1 ht
      exact find_ancestor_join hx
    · cases ht

/-- **Where there is a common supertype one is found.** -/
theorem leastCommon_isSome (ha : a.IsData) (hau : h.isSubtype a u = true) (hbu : h.isSubtype b u = true) :
    (h.leastCommon a b).isSome := by
  cases (isSubtype_iff _ _).1 hau with
  | bool | boolInt | int | null => cases (isSubtype_iff _ _).1 hbu <;> rfl
  | nullRef c => cases (isSubtype_iff _ _).1 hbu <;> rfl
  | @ref c e hce =>
    cases (isSubtype_iff _ _).1 hbu with
    | nullRef => rfl
    | @ref d _ hde =>
      show (((h.ancestors c).find? _).map Ty.ref).isSome
      rw [Option.isSome_map, List.find?_isSome]
      exact ⟨e, mem_ancestors_iff.2 hce, hbu⟩
  | function | method => exact ha.elim

theorem isData_of_leastCommon (ht : h.leastCommon a b = some t) : a.IsData ∧ b.IsData := by
  unfold leastCommon at ht
  split at ht
  · rename_i hints
    obtain ⟨ha, hb⟩ := Bool.and_eq_true_iff.1 hints
    constructor
    · rcases isSubtype_int ha with rfl | rfl <;> exact trivial
    · rcases isSubtype_int hb with rfl | rfl <;> exact trivial
  · split at ht <;> first | exact ⟨trivial, trivial⟩ | cases ht

/-- **The types can be exchanged.** -/
theorem leastCommon_exchange (ht : h.leastCommon a b = some t) :
    ∃ u, h.leastCommon b a = some u ∧ h.isSubtype t u = true ∧ h.isSubtype u t = true := by
  have hj := leastCommon_join ht
  obtain ⟨u, hu⟩ := Option.isSome_iff_exists.1 (leastCommon_isSome (isData_of_leastCommon ht).2 hj.right hj.left)
  have hj' := (leastCommon_join hu).symm
  exact ⟨u, hu, hj.below hj', hj'.below hj⟩

/-- No class is among its own superclasses. -/
def Acyclic (h : Hierarchy) : Prop := ∀ c, ¬ Relation.TransGen (fun c d => h.superOf c = some d) c c

theorem Acyclic.oneWay (hac : h.Acyclic) : OneWay fun c d => h.superOf c = some d := by
  intro c d hcd hdc
  rcases Relation.reflTransGen_iff_eq_or_transGen.1 hcd with rfl | hlt
  · rfl
  · exact absurd (hlt.trans_left hdc) (hac c)

end Hierarchy

/-! ## Conditionals -/

theorem Expr.type_cond_iff {k : Classes} {l : Nat} {c yes no : Expr} {t : Ty} :
    (Expr.cond l c yes no).type k = .ok t ↔ ∃ test left right, c.type k = .ok test ∧
      k.hierarchy.isSubtype test .bool = true ∧ yes.type k = .ok left ∧ no.type k = .ok right ∧
      k.hierarchy.leastCommon left right = some t := by
  rw [Expr.type]
  constructor
  · intro h
    obtain ⟨test, hc, h⟩ := exists_of_bind_ok h
    split at h
    · rename_i hs
      obtain ⟨left, hyes, h⟩ := exists_of_bind_ok h
      obtain ⟨right, hno, h⟩ := exists_of_bind_ok h
      split at h
      · rename_i hl
        cases h
        exact ⟨test, left, right, hc, hs, hyes, hno, hl⟩
      · cases h
    · cases h
  · rintro ⟨test, left, right, hc, hs, hyes, hno, hl⟩
    simp only [hc, hyes, hno, hl, bind, Except.bind, hs, if_true]

/-- **A least common supertype is a join**, on every hierarchy, cyclic ones included, and where none is found there is
no common supertype.  So the two types can be exchanged, which changes nothing on an acyclic hierarchy, and so can the
branches of a conditional, whatever stands in them. -/
theorem leastCommon_is_join (h : Hierarchy) :
    (∀ a b, a.IsData → b.IsData →
      (∀ t, h.leastCommon a b = some t → h.isSubtype a t = true ∧ h.isSubtype b t = true ∧
        ∀ u, h.isSubtype a u = true → h.isSubtype b u = true → h.isSubtype t u = true) ∧
      (h.leastCommon a b = none → ¬ ∃ u, h.isSubtype a u = true ∧ h.isSubtype b u = true)) ∧
    (∀ a b, (h.leastCommon a b = none ∧ h.leastCommon b a = none) ∨
      ∃ s t, h.leastCommon a b = some s ∧ h.leastCommon b a = some t ∧
        h.isSubtype s t = true ∧ h.isSubtype t s = true) ∧
    (h.Acyclic → ∀ a b, h.leastCommon a b = h.leastCommon b a) ∧
    (∀ layouts l c yes no t, (Expr.cond l c yes no).type ⟨h, layouts⟩ = .ok t →
      ∃ t', (Expr.cond l c no yes).type ⟨h, layouts⟩ = .ok t' ∧ h.isSubtype t t' = true ∧ h.isSubtype t' t = true ∧
        (h.Acyclic → t = t')) := by
  have hexchange : ∀ a b, (h.leastCommon a b = none ∧ h.leastCommon b a = none) ∨
      ∃ s t, h.leastCommon a b = some s ∧ h.leastCommon b a = some t ∧
        h.isSubtype s t = true ∧ h.isSubtype t s = true := fun a b => by
    cases hab : h.leastCommon a b with
    | some s =>
      obtain ⟨t, hba, hst⟩ := Hierarchy.leastCommon_exchange hab
      exact .inr ⟨s, t, rfl, hba, hst⟩
    | none =>
      cases hba : h.leastCommon b a with
      | none => exact .inl ⟨rfl, rfl⟩
      | some t =>
        obtain ⟨s, hs, -⟩ := Hierarchy.leastCommon_exchange hba
        rw [hab] at hs
        cases hs
  refine ⟨fun a b ha _ => ⟨fun t ht => ?_, ?_⟩, hexchange, fun hac a b => ?_, ?_⟩
  · have hj := Hierarchy.leastCommon_join ht
    exact ⟨hj.left, hj.right, hj.least⟩
  · rintro hnone ⟨u, hau, hbu⟩
    have hsome := Hierarchy.leastCommon_isSome ha hau hbu
    rw [hnone] at hsome
    cases hsome
  · rcases hexchange a b with ⟨hab, hba⟩ | ⟨s, t, hab, hba, hst, hts⟩
    · rw [hab, hba]
    · rw [hab, hba, Hierarchy.isSubtype_antisymm hac.oneWay hst hts]
  · intro layouts l c yes no t ht
    obtain ⟨test, left, right, hc, hs, hyes, hno, hl⟩ := Expr.type_cond_iff.1 ht
    obtain ⟨t', hl', htt', ht't⟩ := Hierarchy.leastCommon_exchange hl
    exact ⟨t', Expr.type_cond_iff.2 ⟨test, right, left, hc, hs, hno, hyes, hl'⟩, htt', ht't,
      fun hac => Hierarchy.isSubtype_antisymm hac.oneWay htt' ht't⟩

/-- Two classes that extend a third. -/
def fork : Hierarchy := .ofDeclarations [(⟨"B".toList⟩, ⟨"A".toList⟩), (⟨"C".toList⟩, ⟨"A".toList⟩)]

theorem fork_acyclic : fork.Acyclic := by
  intro c hc
  -- only the third class counts for less than the two
  have hrank : ∀ c s, fork.superOf c = some s →
      (if s = ⟨"A".toList⟩ then 0 else 1) < if c = ⟨"A".toList⟩ then 0 else 1 := by
    intro c s hs
    rw [fork, Hierarchy.superOf_ofDeclarations] at hs
    obtain ⟨before, after, he, -⟩ := hs
    have hmem : (c, s) ∈ [(⟨"B".toList⟩, ⟨"A".toList⟩), (⟨"C".toList⟩, ⟨"A".toList⟩)] := he ▸ by simp
    rcases List.mem_pair.1 hmem with hb | hb <;> cases hb <;> decide
  exact Nat.lt_irrefl _ (Hierarchy.rank_lt_of_transGen hrank hc)

/-- A conditional between two variables of these classes. -/
def between (yes no : String) : Expr :=
  .cond 1 (.bool 1 true) (.id 1 ⟨⟨['x']⟩, 0, some ⟨0, .ref ⟨yes.toList⟩, -2⟩⟩)
    (.id 1 ⟨⟨['y']⟩, 0, some ⟨0, .ref ⟨no.toList⟩, -3⟩⟩)

/-- On a circle the order of two classes decides which of two equal classes is found; on a fork it does not. -/
theorem circle_joins :
    circle.leastCommon (.ref ⟨"C".toList⟩) (.ref ⟨"B".toList⟩) = some (.ref ⟨"A".toList⟩) ∧
    circle.leastCommon (.ref ⟨"B".toList⟩) (.ref ⟨"C".toList⟩) = some (.ref ⟨"B".toList⟩) ∧
    (∀ u, circle.isSubtype (.ref ⟨"C".toList⟩) u = true → circle.isSubtype (.ref ⟨"B".toList⟩) u = true →
      circle.isSubtype (.ref ⟨"A".toList⟩) u = true) ∧
    circle.leastCommon .int .null = none ∧ (¬ ∃ u, circle.isSubtype .int u = true ∧ circle.isSubtype .null u = true) ∧
    (between "C" "B").type ⟨circle, []⟩ = .ok (.ref ⟨"A".toList⟩) ∧
    (∃ t, (between "B" "C").type ⟨circle, []⟩ = .ok t ∧ circle.isSubtype (.ref ⟨"A".toList⟩) t = true) ∧
    fork.Acyclic ∧ fork.leastCommon (.ref ⟨"B".toList⟩) (.ref ⟨"C".toList⟩) =
      fork.leastCommon (.ref ⟨"C".toList⟩) (.ref ⟨"B".toList⟩) := by
  obtain ⟨hleast, -, -, hcond⟩ := leastCommon_is_join circle
  have hcb : circle.leastCommon (.ref ⟨"C".toList⟩) (.ref ⟨"B".toList⟩) = some (.ref ⟨"A".toList⟩) := by rfl
  have hnone : circle.leastCommon .int .null = none := by rfl
  have htype : (between "C" "B").type ⟨circle, []⟩ = .ok (.ref ⟨"A".toList⟩) := by rfl
  obtain ⟨t, ht, hat, -⟩ := hcond [] 1 _ _ _ _ htype
  obtain ⟨-, -, hbelow⟩ := (hleast (.ref ⟨"C".toList⟩) (.ref ⟨"B".toList⟩) trivial trivial).1 _ hcb
  have hapart := (hleast .int .null trivial trivial).2 hnone
  exact ⟨hcb, rfl, hbelow, hnone, hapart, htype, ⟨t, ht, hat⟩, fork_acyclic,
    (leastCommon_is_join fork).2.2.1 fork_acyclic _ _⟩

end FoolLang
