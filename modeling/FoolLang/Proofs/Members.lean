import FoolLang.Proofs.Evaluate
import FoolLang.Proofs.Operands
import FoolLang.Proofs.Uses
import Mathlib.Data.List.Nodup
/-!
# Members — the layout of a class and the names in it

The members of a class have positions: that of a field gives its offset, that of a method its slot of the dispatch
table.  A class keeps the positions of what it inherits (`Members.Tidy`), and the slot of a method holds the routine of
the class that declares it last (`Members.Serves`).
-/
namespace FoolLang

theorem wrapOffset_of_fits {n : Int} (h : Assembly.FitsWord n) : wrapOffset n = n := by
  unfold Assembly.FitsWord Text.maxInt32 at h
  exact Int32.toInt_ofInt_of_le (by omega) (by omega)

theorem fieldPosition_fieldOffset {i : Nat} (h : i ≤ Text.maxInt32) : fieldPosition (fieldOffset i) = i := by
  rw [fieldPosition, fieldOffset, wrapOffset_of_fits ⟨by omega, by omega⟩]
  omega

theorem fieldOffset_neg {i : Nat} (h : i ≤ Text.maxInt32) : fieldOffset i < 0 := by
  rw [fieldOffset, wrapOffset_of_fits ⟨by omega, by omega⟩]
  omega

theorem toNat_methodOffset {j : Nat} (h : j ≤ Text.maxInt32) : (methodOffset j).toNat = j := by
  rw [methodOffset, wrapOffset_of_fits (Assembly.fitsWord_ofNat h)]
  rfl

section

variable {α : Type} {i j : Nat} {a : α} {l : List α}

theorem getElem?_place (h : i ≤ l.length) : (place i a l)[j]? = if j = i then some a else l[j]? := by
  unfold place
  split
  · rename_i hlt
    rw [List.getElem?_set]
    by_cases hj : i = j
    · rw [if_pos hj, if_pos hlt, if_pos hj.symm]
    · rw [if_neg hj, if_neg (Ne.symm hj)]
  · obtain rfl : i = l.length := by omega
    by_cases hj : j = l.length
    · rw [if_pos hj, hj, List.getElem?_concat_length]
    · rw [if_neg hj]
      rcases Nat.lt_or_gt_of_ne hj with hlt | hgt
      · rw [List.getElem?_append_left hlt]
      · rw [List.getElem?_eq_none (by simp; omega), List.getElem?_eq_none (by omega)]

theorem length_place {β : Type} {b : β} {m : List β} (h : l.length = m.length) :
    (place i a l).length = (place i b m).length := by
  unfold place
  rw [h]
  split <;> simp [h]

end

/-! ## Positions -/

/-- Where a name is among names, or where it is to be added. -/
def Slot (names : List Ident) (i : Nat) (x : Ident) : Prop :=
  names[i]? = some x ∨ i = names.length ∧ x ∉ names

section

variable {names : List Ident} {i j : Nat} {x y : Ident}

theorem Slot.le_length (h : Slot names i x) : i ≤ names.length := by
  rcases h with h | ⟨rfl, -⟩
  · exact Nat.le_of_lt (List.getElem?_eq_some_iff.1 h).1
  · exact Nat.le_refl _

theorem mem_addName : y ∈ addName names x ↔ y = x ∨ y ∈ names := by
  unfold addName
  split
  · constructor
    · exact .inr
    · rintro (rfl | h)
      · assumption
      · exact h
  · rw [List.mem_append, List.mem_singleton, or_comm]

theorem nodup_addName (h : names.Nodup) (x : Ident) : (addName names x).Nodup := by
  unfold addName
  split
  · exact h
  · rename_i hx
    rw [List.nodup_append]
    refine ⟨h, List.nodup_singleton x, fun a ha b hb => ?_⟩
    rintro rfl
    obtain rfl := List.mem_singleton.1 hb
    exact hx ha

theorem prefix_addName (names : List Ident) (x : Ident) : names <+: addName names x := by
  unfold addName
  split
  · exact List.prefix_refl _
  · exact List.prefix_append _ _

theorem prefix_addNames (xs : List Ident) : ∀ names : List Ident, names <+: xs.foldl addName names := by
  induction xs with
  | nil => exact fun names => List.prefix_refl names
  | cons x xs ih => exact fun names => (prefix_addName names x).trans (ih _)

theorem length_addName_le (names : List Ident) (x : Ident) : (addName names x).length ≤ names.length + 1 := by
  unfold addName
  split
  · exact Nat.le_succ _
  · rw [List.length_append]
    exact Nat.le_refl _

theorem length_addNames_le (xs : List Ident) : ∀ names : List Ident,
    (xs.foldl addName names).length ≤ names.length + xs.length := by
  induction xs with
  | nil => exact fun names => Nat.le_refl _
  | cons x xs ih =>
    intro names
    have h₁ := ih (addName names x)
    have h₂ := length_addName_le names x
    rw [List.foldl_cons, List.length_cons]
    omega

theorem Slot.addName_eq (h : Slot names i x) : addName names x = place i x names := by
  unfold addName place
  rcases h with h | ⟨rfl, hx⟩
  · obtain ⟨hlt, hi⟩ := List.getElem?_eq_some_iff.1 h
    have hmem : x ∈ names := List.mem_of_getElem? h
    rw [if_pos hmem, if_pos hlt]
    refine (List.ext_getElem? fun j => ?_).symm
    rw [List.getElem?_set]
    by_cases hj : i = j
    · rw [if_pos hj, if_pos hlt, ← hj, h]
    · rw [if_neg hj]
  · rw [if_neg hx, if_neg (Nat.lt_irrefl _)]

theorem Slot.eq_of_getElem? (h : Slot names i x) (hn : names.Nodup) (hj : names[j]? = some x) : j = i := by
  rcases h with h | ⟨-, hx⟩
  · obtain ⟨hlt, -⟩ := List.getElem?_eq_some_iff.1 hj
    exact (List.getElem?_inj hlt hn).1 (hj.trans h.symm)
  · exact absurd (List.mem_of_getElem? hj) hx

end

/-- Names and what they stand for are lists side by side, and a scope has an entry for each. -/
structure Keeps {α : Type} (entry : Nat → α → Entry) (names : List Ident) (types : List α) (T : Scope) : Prop where
  length : names.length = types.length
  distinct : names.Nodup
  listed : ∀ i x t, names[i]? = some x → types[i]? = some t → T.lookup x = some (entry i t)

namespace Keeps

variable {α : Type} {entry : Nat → α → Entry} {names : List Ident} {types : List α} {T : Scope} {x : Ident} {i : Nat}

theorem nil (T : Scope) : Keeps entry [] [] T := ⟨rfl, List.nodup_nil, fun _ _ _ h => nomatch h⟩

theorem exists_entry (h : Keeps entry names types T) (hx : x ∈ names) :
    ∃ i t, names[i]? = some x ∧ types[i]? = some t ∧ T.lookup x = some (entry i t) := by
  obtain ⟨i, hi⟩ := List.mem_iff_getElem?.1 hx
  have hlt : i < types.length := by
    rw [← h.length]
    exact (List.getElem?_eq_some_iff.1 hi).1
  have ht : types[i]? = some types[i] := List.getElem?_eq_getElem hlt
  exact ⟨i, types[i], hi, ht, h.listed i x _ hi ht⟩

/-- A name of another kind changes nothing. -/
theorem skip (h : Keeps entry names types T) (hx : x ∉ names) (e : Entry) : Keeps entry names types ((x, e) :: T) := by
  refine ⟨h.length, h.distinct, fun j y t hj ht => ?_⟩
  have hne : y ≠ x := by
    rintro rfl
    exact hx (List.mem_of_getElem? hj)
  rw [lookup_cons_of_ne hne]
  exact h.listed j y t hj ht

theorem add (h : Keeps entry names types T) (hi : Slot names i x) (t : α) :
    Keeps entry (addName names x) (place i t types) ((x, entry i t) :: T) := by
  have hle : i ≤ types.length := by
    rw [← h.length]
    exact hi.le_length
  refine ⟨?_, nodup_addName h.distinct x, fun j y u hj hu => ?_⟩
  · rw [hi.addName_eq]
    exact length_place h.length
  · rw [hi.addName_eq, getElem?_place hi.le_length] at hj
    rw [getElem?_place hle] at hu
    by_cases hji : j = i
    · rw [if_pos hji] at hj hu
      cases hj
      cases hu
      rw [List.lookup_cons, beq_self_eq_true, hji]
    · rw [if_neg hji] at hj hu
      have hne : y ≠ x := by
        rintro rfl
        exact hji (hi.eq_of_getElem? h.distinct hj)
      rw [lookup_cons_of_ne hne]
      exact h.listed j y u hj hu

end Keeps

def fieldEntry (i : Nat) (t : Ty) : Entry := ⟨1, t, fieldOffset i⟩

def methodEntry (j : Nat) (sig : Signature) : Entry := ⟨1, .method sig, methodOffset j⟩

namespace Members

/-- The members of a class by name, in the order of the layout, are those in its virtual table. -/
structure Tidy (fields methods : List Ident) (s : Members) : Prop where
  ofFields : Keeps fieldEntry fields s.layout.fields s.table
  ofMethods : Keeps methodEntry methods s.layout.methods s.table
  plain : ∀ t ∈ s.layout.fields, t.isMethod = false
  only : ∀ x e, s.table.lookup x = some e → x ∈ fields ∨ x ∈ methods

variable {fields methods : List Ident} {s : Members} {x : Ident} {off : Int}

theorem Tidy.empty : Tidy [] [] .empty :=
  ⟨.nil _, .nil _, (fun _ h => nomatch h), fun _ _ h => nomatch h⟩

theorem Tidy.of_field (ht : Tidy fields methods s) {e : Entry} (he : s.table.lookup x = some e)
    (hm : e.ty.isMethod = false) :
    x ∉ methods ∧ ∃ i t, fields[i]? = some x ∧ s.layout.fields[i]? = some t ∧ e = fieldEntry i t := by
  have hx : x ∉ methods := by
    intro hx
    obtain ⟨j, sig, -, -, hl⟩ := ht.ofMethods.exists_entry hx
    rw [he] at hl
    cases hl
    cases hm
  refine ⟨hx, ?_⟩
  rcases ht.only x e he with hf | hx'
  · obtain ⟨i, t, hi, hti, hl⟩ := ht.ofFields.exists_entry hf
    rw [he] at hl
    exact ⟨i, t, hi, hti, Option.some.inj hl⟩
  · exact absurd hx' hx

theorem Tidy.of_method (ht : Tidy fields methods s) {e : Entry} (he : s.table.lookup x = some e)
    (hm : e.ty.isMethod = true) :
    x ∉ fields ∧ ∃ j sig, methods[j]? = some x ∧ s.layout.methods[j]? = some sig ∧ e = methodEntry j sig := by
  have hx : x ∉ fields := by
    intro hx
    obtain ⟨i, t, -, hti, hl⟩ := ht.ofFields.exists_entry hx
    rw [he] at hl
    cases hl
    rw [fieldEntry, ht.plain t (List.mem_of_getElem? hti)] at hm
    cases hm
  refine ⟨hx, ?_⟩
  rcases ht.only x e he with hx' | hf
  · exact absurd hx' hx
  · obtain ⟨j, sig, hj, hsj, hl⟩ := ht.ofMethods.exists_entry hf
    rw [he] at hl
    exact ⟨j, sig, hj, hsj, Option.some.inj hl⟩

theorem Tidy.not_mem (ht : Tidy fields methods s) (hx : s.table.lookup x = none) : x ∉ fields ∧ x ∉ methods := by
  constructor
  · intro hf
    obtain ⟨i, t, -, -, hl⟩ := ht.ofFields.exists_entry hf
    rw [hx] at hl
    cases hl
  · intro hm
    obtain ⟨i, t, -, -, hl⟩ := ht.ofMethods.exists_entry hm
    rw [hx] at hl
    cases hl

/-- The offset a field gets is that of its position. -/
theorem Tidy.fieldSlot (ht : Tidy fields methods s) (h : s.fieldSlot x = .ok off) :
    ∃ i, off = fieldOffset i ∧ Slot fields i x ∧ x ∉ methods := by
  unfold Members.fieldSlot at h
  split at h
  · cases h
  · split at h
    · rename_i hx
      cases h
      obtain ⟨hf, hm⟩ := ht.not_mem hx
      exact ⟨fields.length, by rw [ht.ofFields.length], .inr ⟨rfl, hf⟩, hm⟩
    · rename_i e he
      split at h
      · cases h
      · rename_i hm
        cases h
        obtain ⟨hx, i, t, hi, -, rfl⟩ := ht.of_field he (eq_false_of_ne_true hm)
        exact ⟨i, rfl, .inl hi, hx⟩

/-- The offset a method gets is that of its position. -/
theorem Tidy.methodSlot (ht : Tidy fields methods s) (h : s.methodSlot x = .ok off) :
    ∃ j, off = methodOffset j ∧ Slot methods j x ∧ x ∉ fields := by
  unfold Members.methodSlot at h
  split at h
  · cases h
  · split at h
    · rename_i hx
      cases h
      obtain ⟨hf, hm⟩ := ht.not_mem hx
      exact ⟨methods.length, by rw [ht.ofMethods.length], .inr ⟨rfl, hm⟩, hf⟩
    · rename_i e he
      split at h
      · rename_i hm
        cases h
        obtain ⟨hx, j, sig, hj, -, rfl⟩ := ht.of_method he hm
        exact ⟨j, rfl, .inl hj, hx⟩
      · cases h

theorem addField_seen (level : Nat) (s : Members) (f : Field) : (s.addField level f).seen = f.id :: s.seen := by
  unfold addField
  split <;> rfl

theorem addMethod_seen (level : Nat) (s : Members) (m : Method) : (s.addMethod level m).seen = m.id :: s.seen := by
  unfold addMethod
  split <;> rfl

theorem fieldPlace_eq (h : s.fieldSlot x = .ok off) (hb : s.layout.fields.length ≤ Text.maxInt32) :
    s.fieldPlace x = fieldPosition off := by
  unfold Members.fieldSlot at h
  split at h
  · cases h
  · cases hx : s.table.lookup x with
    | none =>
      rw [hx] at h
      cases h
      rw [fieldPlace, hx, fieldPosition_fieldOffset hb]
    | some e =>
      rw [hx] at h
      dsimp only at h
      split at h
      · cases h
      · cases h
        rw [fieldPlace, hx]

theorem methodPlace_eq (h : s.methodSlot x = .ok off) (hb : s.layout.methods.length ≤ Text.maxInt32) :
    s.methodPlace x = off.toNat := by
  unfold Members.methodSlot at h
  split at h
  · cases h
  · cases hx : s.table.lookup x with
    | none =>
      rw [hx] at h
      cases h
      rw [methodPlace, hx, toNat_methodOffset hb]
    | some e =>
      rw [hx] at h
      dsimp only at h
      split at h
      · cases h
        rw [methodPlace, hx]
      · cases h

theorem addField_eq {f : Field} (h : s.fieldSlot f.id = .ok off) (hb : s.layout.fields.length ≤ Text.maxInt32)
    (level : Nat) : s.addField level f =
    ⟨(f.id, ⟨level, f.ty, off⟩) :: s.table, ⟨place (fieldPosition off) f.ty s.layout.fields, s.layout.methods⟩,
      f.id :: s.seen⟩ := by
  rw [addField, h, fieldPlace_eq h hb]

theorem addMethod_eq {m : Method} (h : s.methodSlot m.id = .ok off) (hb : s.layout.methods.length ≤ Text.maxInt32)
    (level : Nat) : s.addMethod level m =
    ⟨(m.id, ⟨level, .method m.signature, off⟩) :: s.table,
      ⟨s.layout.fields, place off.toNat m.signature s.layout.methods⟩, m.id :: s.seen⟩ := by
  rw [addMethod, h, methodPlace_eq h hb]

theorem Tidy.addField (ht : Tidy fields methods s) {f : Field} (h : s.fieldSlot f.id = .ok off)
    (hf : f.ty.isMethod = false) (hb : fields.length ≤ Text.maxInt32) :
    Tidy (addName fields f.id) methods (s.addField 1 f) := by
  obtain ⟨i, rfl, hi, hm⟩ := ht.fieldSlot h
  have hle := hi.le_length
  rw [addField_eq h (ht.ofFields.length ▸ hb), fieldPosition_fieldOffset (by omega)]
  refine ⟨ht.ofFields.add hi f.ty, ht.ofMethods.skip hm _, fun t hmem => ?_, fun x e he => ?_⟩
  · rcases mem_place hmem with rfl | hmem
    · exact hf
    · exact ht.plain t hmem
  · rw [List.lookup_cons] at he
    split at he
    · rename_i hx
      obtain rfl := eq_of_beq hx
      exact .inl (mem_addName.2 (.inl rfl))
    · rcases ht.only x e he with hx | hx
      · exact .inl (mem_addName.2 (.inr hx))
      · exact .inr hx

theorem Tidy.addMethod (ht : Tidy fields methods s) {m : Method} (h : s.methodSlot m.id = .ok off)
    (hb : methods.length ≤ Text.maxInt32) : Tidy fields (addName methods m.id) (s.addMethod 1 m) := by
  obtain ⟨j, rfl, hj, hf⟩ := ht.methodSlot h
  have hle := hj.le_length
  rw [addMethod_eq h (ht.ofMethods.length ▸ hb), toNat_methodOffset (by omega)]
  refine ⟨ht.ofFields.skip hf _, ht.ofMethods.add hj m.signature, ht.plain, fun x e he => ?_⟩
  rw [List.lookup_cons] at he
  split at he
  · rename_i hx
    obtain rfl := eq_of_beq hx
    exact .inr (mem_addName.2 (.inl rfl))
  · rcases ht.only x e he with hx | hx
    · exact .inl hx
    · exact .inr (mem_addName.2 (.inr hx))

end Members
end FoolLang
