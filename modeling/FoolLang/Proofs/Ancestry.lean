import FoolLang.Proofs.Programs
/-!
# Ancestry — the class hierarchy is a forest, in source order

Nothing in a hierarchy keeps it from being cyclic, and a source can declare a class again as an extension of one of its
own subclasses.  But a class gets a superclass only where it is declared first, and only one that is declared already
(`Env.Traces`): so superclasses lead back in the source, whatever errors the program has.
-/
namespace FoolLang

/-! ## First declarations -/

/-- The first declaration of `c` among these classes extends `s`, and `s` is declared before. -/
def FirstExtends (cs : List Class) (c s : Ident) : Prop :=
  ∃ before k after, cs = before ++ k :: after ∧ k.id = c ∧ k.super = some s ∧ (∀ b ∈ before, b.id ≠ c) ∧
    ∃ b ∈ before, b.id = s

/-- Where a class is declared first, counted in classes; their number if it is not declared. -/
def firstAt (cs : List Class) (c : Ident) : Nat := (cs.map Class.id).idxOf c

section

variable {cs : List Class} {c s : Ident}

/-- One more class has the superclass it extends if its name is new and the superclass is not. -/
theorem firstExtends_append {k : Class} : FirstExtends (cs ++ [k]) c s ↔
    FirstExtends cs c s ∨ (k.id = c ∧ k.super = some s ∧ (∀ b ∈ cs, b.id ≠ c) ∧ ∃ b ∈ cs, b.id = s) := by
  constructor
  · rintro ⟨before, k', after, he, hk⟩
    rcases List.eq_nil_or_concat after with rfl | ⟨after', x, rfl⟩
    · obtain ⟨rfl, rfl⟩ : cs = before ∧ k = k' := by simpa using he
      exact .inr hk
    · have he' : cs ++ [k] = (before ++ k' :: after') ++ [x] := by simpa using he
      exact .inl ⟨before, k', after', (List.append_inj_left' he' rfl), hk⟩
  · rintro (⟨before, k', after, rfl, hk⟩ | hk)
    · exact ⟨before, k', after ++ [k], by simp, hk⟩
    · exact ⟨cs, k, [], rfl, hk⟩

theorem FirstExtends.firstAt_lt (h : FirstExtends cs c s) : firstAt cs s < firstAt cs c ∧ firstAt cs c < cs.length := by
  obtain ⟨before, k, after, rfl, rfl, -, hnew, b, hb, rfl⟩ := h
  have hs : b.id ∈ before.map Class.id := List.mem_map_of_mem hb
  have hc : k.id ∉ before.map Class.id := fun hm => by
    obtain ⟨d, hd, hdc⟩ := List.mem_map.1 hm
    exact hnew d hd hdc
  have hfirst : firstAt (before ++ k :: after) k.id = before.length := by
    rw [firstAt, List.map_append, List.idxOf_append_of_notMem hc, List.map_cons, List.idxOf_cons_self, List.length_map,
      Nat.add_zero]
  have hsuper : firstAt (before ++ k :: after) b.id < before.length := by
    rw [firstAt, List.map_append, List.idxOf_append_of_mem hs, ← List.length_map Class.id]
    exact List.idxOf_lt_length_of_mem hs
  rw [hfirst]
  exact ⟨hsuper, by simp⟩

end

/-! ## What is known after some classes -/

/-- What the pass knows after some classes, errors or not: their names, and the superclasses of those that have one. -/
structure Env.Traces (env : Env) (before : List Class) : Prop where
  top : env.AtTop
  tables : Lists env.tables before
  globals : Lists env.globals before
  supers : ∀ c s, env.hierarchy.superOf c = some s ↔ FirstExtends before c s

namespace Env

variable {env : Env} {before : List Class}

theorem AtTop.globals_afterClass (h : env.AtTop) (c : Class) :
    (env.afterClass c).globals = (c.id, ⟨env.level, .cls (env.members c).layout, env.next⟩) :: env.globals := by
  obtain ⟨s, hs⟩ := h
  simp [Env.afterClass, Env.declare, Env.insert, globals, hs]

theorem Traces.initial (names : List Ident) : (Env.initial names).Traces [] where
  top := ⟨[], rfl⟩
  tables := .nil
  globals := .nil
  supers c s := by
    refine iff_of_false (nofun : (none : Option Ident) ≠ some s) ?_
    rintro ⟨pre, k, post, he, -⟩
    simp at he

theorem Traces.superEntry_isSome (h : env.Traces before) (c : Class) :
    (env.superEntry c).isSome ↔ ∃ s, c.super = some s ∧ ∃ b ∈ before, b.id = s := by
  unfold superEntry instantiable
  cases c.super with
  | none => simp
  | some s =>
    have ht := h.tables s
    have hg := h.globals s
    simp only [Option.bind_some, Option.some.injEq, exists_eq_left']
    split
    · exact hg
    · rename_i hn
      exact iff_of_false nofun fun hb => hn (ht.2 hb)

/-- **One more class keeps this**, be it declared already, or its superclass missing. -/
theorem Traces.afterClass (h : env.Traces before) (c : Class) : (env.afterClass c).Traces (before ++ [c]) where
  top := h.top.afterClass c
  tables := h.tables.cons c _
  globals := by
    rw [h.top.globals_afterClass c]
    exact h.globals.cons c _
  supers d s := by
    show (env.hierarchyAfter c).superOf d = some s ↔ _
    rw [firstExtends_append, ← h.supers d s]
    have hg : (env.globals.lookup c.id).isSome ↔ ∃ b ∈ before, b.id = c.id := h.globals c.id
    cases hr : env.redeclared c with
    | true =>
      -- a class declared again changes no superclass
      have hsame : (env.hierarchyAfter c).superOf d = env.hierarchy.superOf d := by
        unfold hierarchyAfter
        split
        · rw [hr, if_pos rfl]
        · rfl
      obtain ⟨b, hb, hbc⟩ := hg.1 hr
      rw [hsame]
      refine (or_iff_left ?_).symm
      rintro ⟨rfl, -, hnew, -⟩
      exact hnew b hb hbc
    | false =>
      have hnew : ∀ b ∈ before, b.id ≠ c.id := fun b hb hbc => by
        have hsome : env.redeclared c = true := hg.2 ⟨b, hb, hbc⟩
        rw [hr] at hsome
        cases hsome
      rw [superOf_hierarchyAfter hr]
      split
      · rename_i hd
        obtain ⟨rfl, he⟩ := hd
        obtain ⟨s', hs', hb⟩ := (h.superEntry_isSome c).1 he
        have hnone : env.hierarchy.superOf c.id ≠ some s := fun hs => by
          obtain ⟨pre, k, post, rfl, hk, -⟩ := (h.supers c.id s).1 hs
          exact hnew k (by simp) hk
        rw [hs']
        refine ⟨fun hs => .inr ⟨rfl, hs, hnew, ?_⟩, fun hs => (hs.resolve_left hnone).2.1⟩
        obtain rfl := Option.some.inj hs
        exact hb
      · rename_i hd
        refine (or_iff_left ?_).symm
        rintro ⟨rfl, hs, -, hb⟩
        exact hd ⟨rfl, (h.superEntry_isSome c).2 ⟨s, hs, hb⟩⟩

theorem Traces.afterClasses (cs : List Class) : ∀ {env : Env} {before : List Class}, env.Traces before →
    (cs.foldl Env.afterClass env).Traces (before ++ cs) := by
  induction cs with
  | nil => exact fun h => by simpa using h
  | cons c cs ih => exact fun h => by simpa using ih (h.afterClass c)

end Env

/-! ## Forests -/

/-- Superclasses never lead back to where they come from, they end at a class that has none, and no two classes are
each below the other. -/
structure Hierarchy.Forest (h : Hierarchy) : Prop where
  acyclic : ∀ c, ¬ Relation.TransGen (fun c d => h.superOf c = some d) c c
  rooted : ∀ c, ∃ r, (h.ancestors c).getLast? = some r ∧ h.superOf r = none
  antisymm : ∀ c d, h.isSubtype (.ref c) (.ref d) = true → h.isSubtype (.ref d) (.ref c) = true → c = d

namespace Hierarchy

variable {h : Hierarchy} {c : Ident} {rank : Ident → Nat}

/-- What counts down along superclasses counts down along any way up. -/
theorem rank_lt_of_transGen (hr : ∀ c s, h.superOf c = some s → rank s < rank c) {d : Ident}
    (hcd : Relation.TransGen (fun c d => h.superOf c = some d) c d) : rank d < rank c := by
  induction hcd with
  | single hs => exact hr _ _ hs
  | tail _ hs ih => exact Nat.lt_trans (hr _ _ hs) ih

theorem rank_le_of_below (hr : ∀ c s, h.superOf c = some s → rank s < rank c) {d : Ident} (hb : h.Below c d) :
    rank d ≤ rank c := by
  rcases Relation.reflTransGen_iff_eq_or_transGen.1 hb with rfl | hlt
  · exact Nat.le_refl _
  · exact Nat.le_of_lt (rank_lt_of_transGen hr hlt)

/-- **What counts down along superclasses makes a hierarchy a forest.**  The last ancestor of a class counts least; if
it had a superclass, that would be an ancestor too and count less. -/
theorem Forest.of_rank (hr : ∀ c s, h.superOf c = some s → rank s < rank c) : h.Forest where
  acyclic c hc := Nat.lt_irrefl _ (rank_lt_of_transGen hr hc)
  rooted c := by
    obtain ⟨r, hlast⟩ : ∃ r, (h.ancestors c).getLast? = some r :=
      Option.isSome_iff_exists.1 (by simp [ancestors, chain])
    refine ⟨r, hlast, Option.eq_none_iff_forall_ne_some.2 fun s hs => ?_⟩
    have hbelow : h.Below c r := mem_ancestors_iff.1 (List.mem_of_getLast? hlast)
    have hmem : s ∈ h.ancestors c := mem_ancestors_iff.2 (hbelow.tail hs)
    have hdown : (h.ancestors c).Pairwise fun x y => rank y < rank x :=
      (pairwise_chain h _ c).imp (rank_lt_of_transGen hr)
    have hless := hr r s hs
    obtain ⟨before, he⟩ := List.getLast?_eq_some_iff.1 hlast
    rw [he] at hmem hdown
    rcases List.mem_append.1 hmem with hs | hs
    · exact Nat.lt_asymm hless ((List.pairwise_append.1 hdown).2.2 s hs r List.mem_cons_self)
    · rw [List.mem_singleton.1 hs] at hless
      exact Nat.lt_irrefl _ hless
  antisymm c d hcd hdc := by
    rcases Relation.reflTransGen_iff_eq_or_transGen.1 (isSubtype_ref.1 hcd) with rfl | hlt
    · rfl
    · have hle := rank_le_of_below hr (isSubtype_ref.1 hdc)
      exact absurd (rank_lt_of_transGen hr hlt) (Nat.not_lt.2 hle)

end Hierarchy

/-- **The class hierarchy of a program is a forest in source order**, whatever is wrong with the program: a class has a
superclass exactly if its first declaration extends one that is declared before. -/
theorem hierarchy_in_source_order (p : Program) :
    (∀ c s, p.classTable.hierarchy.superOf c = some s ↔ FirstExtends p.classes c s) ∧
    (∀ c s, p.classTable.hierarchy.superOf c = some s →
      firstAt p.classes s < firstAt p.classes c ∧ firstAt p.classes c < p.classes.length) ∧
    p.classTable.hierarchy.Forest := by
  have hsupers : ∀ c s, p.classTable.hierarchy.superOf c = some s ↔ FirstExtends p.classes c s := by
    rw [p.classTable_eq]
    exact ((Env.Traces.initial _).afterClasses p.classes).supers
  have hfirst : ∀ c s, p.classTable.hierarchy.superOf c = some s →
      firstAt p.classes s < firstAt p.classes c ∧ firstAt p.classes c < p.classes.length :=
    fun c s hs => ((hsupers c s).1 hs).firstAt_lt
  exact ⟨hsupers, hfirst, .of_rank fun c s hs => (hfirst c s hs).1⟩

/-- A source where classes are declared again as extensions of their subclasses, where one extends itself and one a
class that comes later. -/
def tangledSource : List Char :=
  "let class A () { } class B extends A () { } class A extends B () { } ".toList ++
    ("class C extends C () { } class D extends E () { } ".toList ++
    "class E extends B () { } class B extends E () { } in 1;".toList)

/-- The superclasses lead from E to B to A, and nowhere else. -/
theorem tangledSource_in_order : ∃ p, parse tangledSource = .ok p ∧ p.nameErrors ≠ [] ∧
    p.classes.map (fun c => (c.id, c.super)) = [(⟨"A".toList⟩, none), (⟨"B".toList⟩, some ⟨"A".toList⟩),
      (⟨"A".toList⟩, some ⟨"B".toList⟩), (⟨"C".toList⟩, some ⟨"C".toList⟩), (⟨"D".toList⟩, some ⟨"E".toList⟩),
      (⟨"E".toList⟩, some ⟨"B".toList⟩), (⟨"B".toList⟩, some ⟨"E".toList⟩)] ∧
    p.classTable.hierarchy.supers = [(⟨"E".toList⟩, ⟨"B".toList⟩), (⟨"B".toList⟩, ⟨"A".toList⟩)] ∧
    firstAt p.classes ⟨"A".toList⟩ < firstAt p.classes ⟨"B".toList⟩ ∧
    firstAt p.classes ⟨"B".toList⟩ < firstAt p.classes ⟨"E".toList⟩ ∧
    p.classTable.hierarchy.Forest := by
  have hparsed : (parse tangledSource).toOption.any (fun p => decide (p.nameErrors ≠ [] ∧
      p.classes.map (fun c => (c.id, c.super)) = [(⟨"A".toList⟩, none), (⟨"B".toList⟩, some ⟨"A".toList⟩),
        (⟨"A".toList⟩, some ⟨"B".toList⟩), (⟨"C".toList⟩, some ⟨"C".toList⟩), (⟨"D".toList⟩, some ⟨"E".toList⟩),
        (⟨"E".toList⟩, some ⟨"B".toList⟩), (⟨"B".toList⟩, some ⟨"E".toList⟩)] ∧
      p.classTable.hierarchy.supers = [(⟨"E".toList⟩, ⟨"B".toList⟩), (⟨"B".toList⟩, ⟨"A".toList⟩)])) = true := by
    decide +kernel
  obtain ⟨p, hp, hm⟩ := exists_of_any hparsed
  obtain ⟨herrors, hclasses, hsupers⟩ := of_decide_eq_true hm
  obtain ⟨-, hfirst, hforest⟩ := hierarchy_in_source_order p
  refine ⟨p, hp, herrors, hclasses, hsupers, ?_, ?_, hforest⟩
  · exact (hfirst ⟨"B".toList⟩ ⟨"A".toList⟩ (by rw [Hierarchy.superOf, hsupers]; rfl)).1
  · exact (hfirst ⟨"E".toList⟩ ⟨"B".toList⟩ (by rw [Hierarchy.superOf, hsupers]; rfl)).1

end FoolLang
