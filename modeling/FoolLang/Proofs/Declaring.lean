import FoolLang.Proofs.Drafts
import FoolLang.Proofs.Members
import FoolLang.Proofs.Scoping
/-!
# Declaring — classes and programs are scoped exactly if their names are all right

The members of a class so far are numbered by the names of their kind (`Members.Numbered`): a new one gets the next
number, one that is inherited has its number already.  So a class adds what the rules say, and a program is scoped if
nothing is wrong with its names (`Program.scoped_iff`).
-/
namespace FoolLang

/-! ## Numbers of names -/

section

variable {names names' : List Ident} {x : Ident}

theorem idxOf_eq_of_mem (h : names <+: names') (hx : x ∈ names) : names'.idxOf x = names.idxOf x := by
  obtain ⟨more, rfl⟩ := h
  exact List.idxOf_append_of_mem hx

theorem mem_addNames (xs : List Ident) : ∀ {names : List Ident}, x ∈ xs.foldl addName names ↔ x ∈ names ∨ x ∈ xs := by
  induction xs with
  | nil => simp
  | cons y xs ih =>
    intro names
    rw [List.foldl_cons, ih, mem_addName, List.mem_cons, or_comm (a := x = y), or_assoc]

/-- The number of a name among names that it is added to. -/
theorem idxOf_addName (names : List Ident) (x : Ident) :
    (addName names x).idxOf x = if x ∈ names then names.idxOf x else names.length := by
  unfold addName
  split
  · rfl
  · rename_i hx
    rw [List.idxOf_append_of_notMem hx]
    simp

theorem length_addName (names : List Ident) (x : Ident) :
    (addName names x).length = if x ∈ names then names.length else names.length + 1 := by
  unfold addName
  split <;> simp

end

/-- An offset beyond the range wraps around to that of an earlier position. -/
theorem fieldPosition_fieldOffset_le (i : Nat) : fieldPosition (fieldOffset i) ≤ i := by
  rw [fieldPosition, fieldOffset, wrapOffset, Int32.toInt_ofInt, Int.bmod_def]
  unfold Int32.size
  split <;> omega

theorem toNat_methodOffset_le (j : Nat) : (methodOffset j).toNat ≤ j := by
  rw [methodOffset, wrapOffset, Int32.toInt_ofInt, Int.bmod_def]
  unfold Int32.size
  split <;> omega

namespace Members

/-- The members so far have the offsets of their numbers among the names of their kind. -/
structure Numbered (fields methods : List Ident) (s : Members) : Prop where
  fieldCount : s.layout.fields.length = fields.length
  methodCount : s.layout.methods.length = methods.length
  entry : ∀ x e, s.table.lookup x = some e →
    e.ty.isMethod = false ∧ x ∈ fields ∧ x ∉ methods ∧ e.offset = fieldOffset (fields.idxOf x) ∨
      e.ty.isMethod = true ∧ x ∈ methods ∧ x ∉ fields ∧ e.offset = methodOffset (methods.idxOf x)
  listed : ∀ x, x ∈ fields ∨ x ∈ methods → (s.table.lookup x).isSome

variable {fields methods : List Ident} {s : Members} {x : Ident}

theorem Numbered.empty : Numbered [] [] .empty := ⟨rfl, rfl, nofun, by simp⟩

namespace Numbered

theorem lookup_none (h : Numbered fields methods s) (hx : x ∉ fields) (hm : x ∉ methods) : s.table.lookup x = none := by
  cases hl : s.table.lookup x with
  | none => rfl
  | some e =>
    rcases h.entry x e hl with ⟨-, hf, -⟩ | ⟨-, hm', -⟩
    · exact absurd hf hx
    · exact absurd hm' hm

theorem lookup_field (h : Numbered fields methods s) (hx : x ∈ fields) (hm : x ∉ methods) : ∃ e,
    s.table.lookup x = some e ∧ e.ty.isMethod = false ∧ e.offset = fieldOffset (fields.idxOf x) := by
  obtain ⟨e, he⟩ := Option.isSome_iff_exists.1 (h.listed x (.inl hx))
  rcases h.entry x e he with ⟨hp, -, -, ho⟩ | ⟨-, hm', -⟩
  · exact ⟨e, he, hp, ho⟩
  · exact absurd hm' hm

theorem lookup_method (h : Numbered fields methods s) (hx : x ∈ methods) (hf : x ∉ fields) : ∃ e,
    s.table.lookup x = some e ∧ e.ty.isMethod = true ∧ e.offset = methodOffset (methods.idxOf x) := by
  obtain ⟨e, he⟩ := Option.isSome_iff_exists.1 (h.listed x (.inr hx))
  rcases h.entry x e he with ⟨-, hf', -⟩ | ⟨hp, -, -, ho⟩
  · exact absurd hf' hf
  · exact ⟨e, he, hp, ho⟩

/-! ## Fields -/

theorem fieldSlot (h : Numbered fields methods s) (hs : x ∉ s.seen) (hm : x ∉ methods) :
    s.fieldSlot x = .ok (fieldOffset ((addName fields x).idxOf x)) := by
  unfold Members.fieldSlot
  rw [if_neg hs, idxOf_addName]
  by_cases hx : x ∈ fields
  · obtain ⟨e, he, hp, ho⟩ := h.lookup_field hx hm
    rw [he, if_pos hx, ← ho]
    dsimp only
    rw [hp, if_neg Bool.false_ne_true]
  · rw [h.lookup_none hx hm, if_neg hx, h.fieldCount]

theorem fieldPlace (h : Numbered fields methods s) (hm : x ∉ methods) : s.fieldPlace x =
    if x ∈ fields then fieldPosition (fieldOffset ((addName fields x).idxOf x)) else s.layout.fields.length := by
  unfold Members.fieldPlace
  rw [idxOf_addName]
  by_cases hx : x ∈ fields
  · obtain ⟨e, he, -, ho⟩ := h.lookup_field hx hm
    rw [he, if_pos hx, if_pos hx, ← ho]
  · rw [h.lookup_none hx hm, if_neg hx]

theorem fieldErrors_eq_nil (h : Numbered fields methods s) {f : Field} :
    s.fieldErrors f = [] ↔ f.id ∉ s.seen ∧ f.id ∉ methods := by
  unfold fieldErrors
  by_cases hs : f.id ∈ s.seen
  · rw [Members.fieldSlot, if_pos hs]
    simp [hs]
  · by_cases hm : f.id ∈ methods
    · obtain ⟨e, he⟩ := Option.isSome_iff_exists.1 (h.listed f.id (.inr hm))
      have hp : e.ty.isMethod = true := by
        rcases h.entry f.id e he with ⟨-, -, hm', -⟩ | ⟨hp, -⟩
        · exact absurd hm hm'
        · exact hp
      rw [Members.fieldSlot, if_neg hs, he]
      dsimp only
      rw [if_pos hp]
      simp [hm]
    · rw [h.fieldSlot hs hm]
      simp [hs, hm]

/-- A member of a kind is at the number of its name. -/
theorem addField (h : Numbered fields methods s) {f : Field} (hs : f.id ∉ s.seen) (hm : f.id ∉ methods)
    (hp : f.ty.isMethod = false) (level : Nat) : Numbered (addName fields f.id) methods (s.addField level f) := by
  have hslot := h.fieldSlot hs hm
  rw [Members.addField, hslot]
  refine ⟨?_, h.methodCount, fun x e he => ?_, fun x hx => ?_⟩
  · have hnum := fieldPosition_fieldOffset_le (fields.idxOf f.id)
    show (place (s.fieldPlace f.id) f.ty s.layout.fields).length = _
    rw [h.fieldPlace hm, length_addName, idxOf_addName]
    unfold place
    by_cases hx : f.id ∈ fields
    · have hlt := List.idxOf_lt_length_of_mem hx
      rw [if_pos hx, if_pos hx, if_pos hx, if_pos (by rw [h.fieldCount]; omega), List.length_set, h.fieldCount]
    · rw [if_neg hx, if_neg hx, if_neg (Nat.lt_irrefl _), List.length_append, h.fieldCount]
      rfl
  · have he : ((f.id, (⟨level, f.ty, fieldOffset ((addName fields f.id).idxOf f.id)⟩ : Entry)) :: s.table).lookup x =
      some e := he
    by_cases hx : x = f.id
    · subst hx
      rw [List.lookup_cons_self] at he
      cases he
      exact .inl ⟨hp, mem_addName.2 (.inl rfl), hm, rfl⟩
    · rw [lookup_cons_of_ne hx] at he
      rcases h.entry x e he with ⟨hp', hf, hm', ho⟩ | ⟨hp', hm', hf, ho⟩
      · exact .inl ⟨hp', mem_addName.2 (.inr hf), hm', by rw [idxOf_eq_of_mem (prefix_addName fields f.id) hf, ho]⟩
      · exact .inr ⟨hp', hm', fun hf' => (mem_addName.1 hf').elim hx hf, ho⟩
  · show (((f.id, (⟨level, f.ty, _⟩ : Entry)) :: s.table).lookup x).isSome
    by_cases hxf : x = f.id
    · rw [hxf, List.lookup_cons_self]
      rfl
    · rw [lookup_cons_of_ne hxf]
      rw [mem_addName, or_assoc] at hx
      exact h.listed x (hx.resolve_left hxf)

/-! ## Methods -/

theorem methodSlot (h : Numbered fields methods s) (hs : x ∉ s.seen) (hf : x ∉ fields) :
    s.methodSlot x = .ok (methodOffset ((addName methods x).idxOf x)) := by
  unfold Members.methodSlot
  rw [if_neg hs, idxOf_addName]
  by_cases hx : x ∈ methods
  · obtain ⟨e, he, hp, ho⟩ := h.lookup_method hx hf
    rw [he, if_pos hx, ← ho]
    dsimp only
    rw [if_pos hp]
  · rw [h.lookup_none hf hx, if_neg hx, h.methodCount]

theorem methodPlace (h : Numbered fields methods s) (hf : x ∉ fields) : s.methodPlace x =
    if x ∈ methods then (methodOffset ((addName methods x).idxOf x)).toNat else s.layout.methods.length := by
  unfold Members.methodPlace
  rw [idxOf_addName]
  by_cases hx : x ∈ methods
  · obtain ⟨e, he, -, ho⟩ := h.lookup_method hx hf
    rw [he, if_pos hx, if_pos hx, ← ho]
  · rw [h.lookup_none hf hx, if_neg hx]

theorem methodErrors_eq_nil (h : Numbered fields methods s) {m : Method} :
    s.methodErrors m = [] ↔ m.id ∉ s.seen ∧ m.id ∉ fields := by
  unfold methodErrors
  by_cases hs : m.id ∈ s.seen
  · rw [Members.methodSlot, if_pos hs]
    simp [hs]
  · by_cases hf : m.id ∈ fields
    · obtain ⟨e, he⟩ := Option.isSome_iff_exists.1 (h.listed m.id (.inl hf))
      have hp : e.ty.isMethod = false := by
        rcases h.entry m.id e he with ⟨hp, -⟩ | ⟨-, -, hf', -⟩
        · exact hp
        · exact absurd hf hf'
      rw [Members.methodSlot, if_neg hs, he]
      dsimp only
      rw [hp, if_neg Bool.false_ne_true]
      simp [hf]
    · rw [h.methodSlot hs hf]
      simp [hs, hf]

theorem addMethod (h : Numbered fields methods s) {m : Method} (hs : m.id ∉ s.seen) (hf : m.id ∉ fields) (level : Nat) :
    Numbered fields (addName methods m.id) (s.addMethod level m) := by
  have hslot := h.methodSlot hs hf
  rw [Members.addMethod, hslot]
  refine ⟨h.fieldCount, ?_, fun x e he => ?_, fun x hx => ?_⟩
  · have hnum := toNat_methodOffset_le (methods.idxOf m.id)
    show (place (s.methodPlace m.id) m.signature s.layout.methods).length = _
    rw [h.methodPlace hf, length_addName, idxOf_addName]
    unfold place
    by_cases hx : m.id ∈ methods
    · have hlt := List.idxOf_lt_length_of_mem hx
      rw [if_pos hx, if_pos hx, if_pos hx, if_pos (by rw [h.methodCount]; omega), List.length_set, h.methodCount]
    · rw [if_neg hx, if_neg hx, if_neg (Nat.lt_irrefl _), List.length_append, h.methodCount]
      rfl
  · have he : ((m.id, (⟨level, .method m.signature, methodOffset ((addName methods m.id).idxOf m.id)⟩ : Entry)) ::
      s.table).lookup x = some e := he
    by_cases hx : x = m.id
    · subst hx
      rw [List.lookup_cons_self] at he
      cases he
      exact .inr ⟨rfl, mem_addName.2 (.inl rfl), hf, rfl⟩
    · rw [lookup_cons_of_ne hx] at he
      rcases h.entry x e he with ⟨hp', hf', hm', ho⟩ | ⟨hp', hm', hf', ho⟩
      · exact .inl ⟨hp', hf', fun hm => (mem_addName.1 hm).elim hx hm', ho⟩
      · exact .inr ⟨hp', mem_addName.2 (.inr hm'), hf', by rw [idxOf_eq_of_mem (prefix_addName methods m.id) hm', ho]⟩
  · show (((m.id, (⟨level, .method m.signature, _⟩ : Entry)) :: s.table).lookup x).isSome
    by_cases hxm : x = m.id
    · rw [hxm, List.lookup_cons_self]
      rfl
    · rw [lookup_cons_of_ne hxm]
      rw [mem_addName, or_left_comm] at hx
      exact h.listed x (hx.resolve_left hxm)

end Numbered

/-! ## All members of a class -/

/-- Different names that are not seen yet, nor taken for the other kind of members. -/
def Takes (s : Members) (taken xs : List Ident) : Prop := xs.Nodup ∧ ∀ x ∈ xs, x ∉ s.seen ∧ x ∉ taken

theorem takes_cons {s s' : Members} {x : Ident} {taken xs : List Ident} (hs : s'.seen = x :: s.seen) :
    s.Takes taken (x :: xs) ↔ (x ∉ s.seen ∧ x ∉ taken) ∧ s'.Takes taken xs := by
  rw [Takes, Takes, List.nodup_cons, List.forall_mem_cons, hs]
  simp only [List.mem_cons, not_or]
  constructor
  · rintro ⟨⟨hx, hxs⟩, hfirst, hrest⟩
    refine ⟨hfirst, hxs, fun y hy => ⟨⟨?_, (hrest y hy).1⟩, (hrest y hy).2⟩⟩
    rintro rfl
    exact hx hy
  · rintro ⟨hfirst, hxs, hrest⟩
    exact ⟨⟨fun hx => (hrest x hx).1.1 rfl, hxs⟩, hfirst, fun y hy => ⟨(hrest y hy).1.2, (hrest y hy).2⟩⟩

section

variable {env : Env} {V : View} {level : Nat}

theorem fieldsErrors_eq_nil (hc : env.classNames = V.classNames) (fs : List Field) : ∀ {fields : List Ident}
    {s : Members}, Numbered fields methods s → (∀ f ∈ fs, f.ty.isMethod = false) →
    (fieldsErrors env s fs = [] ↔ (∀ f ∈ fs, V.Names f.ty) ∧ s.Takes methods (fs.map Field.id)) := by
  induction fs with
  | nil => exact fun _ _ => iff_of_true rfl ⟨nofun, List.nodup_nil, nofun⟩
  | cons f fs ih =>
    intro fields s h hp
    obtain ⟨hpf, hpfs⟩ := List.forall_mem_cons.1 hp
    rw [fieldsErrors, List.append_eq_nil_iff, List.append_eq_nil_iff, Env.typeNameErrors_eq_nil hc,
      h.fieldErrors_eq_nil, List.forall_mem_cons, List.map_cons, takes_cons (addField_seen (env.level + 1) s f)]
    by_cases hf : f.id ∉ s.seen ∧ f.id ∉ methods
    · rw [ih (h.addField hf.1 hf.2 hpf _) hpfs]
      exact and_and_and_comm
    · exact iff_of_false (fun he => hf he.1.2) fun ht => hf ht.2.1

/-- **What fields add to a class.** -/
theorem Numbered.addFields (inherited : List Ident) (fs : List Field) : ∀ {fields : List Ident} {s : Members},
    Numbered fields methods s → (∀ f ∈ fs, f.ty.isMethod = false) → s.Takes methods (fs.map Field.id) →
    (∀ f ∈ fs, f.id ∈ fields ↔ f.id ∈ inherited) →
    let names := (fs.map Field.id).foldl addName fields
    let after := fs.foldl (Members.addField 1) s
    Numbered names methods after ∧ resolveFields 1 s fs = numberFields names fs ∧
      after = ⟨((numberFields names fs).map Field.declares).reverse ++ s.table,
        ⟨placeFields inherited s.layout.fields (numberFields names fs), s.layout.methods⟩,
        (fs.map Field.id).reverse ++ s.seen⟩ := by
  induction fs with
  | nil =>
    intro fields s h _ _ _
    obtain ⟨T, ⟨ts, sigs⟩, seen⟩ := s
    exact ⟨h, rfl, rfl⟩
  | cons f fs ih =>
    intro fields s h hp ht hi
    obtain ⟨hpf, hpfs⟩ := List.forall_mem_cons.1 hp
    obtain ⟨⟨hs, hm⟩, hts⟩ := (takes_cons (addField_seen 1 s f)).1 ht
    obtain ⟨hif, his⟩ := List.forall_mem_cons.1 hi
    have hnew : ∀ g ∈ fs, g.id ∈ addName fields f.id ↔ g.id ∈ inherited := fun g hg => by
      have hne : g.id ≠ f.id := by
        have := (hts.2 g.id (List.mem_map_of_mem hg)).1
        rw [addField_seen] at this
        exact fun he => this (List.mem_cons.2 (.inl he))
      rw [mem_addName, or_iff_right hne, his g hg]
    obtain ⟨hnum, hres, hafter⟩ := ih (h.addField hs hm hpf 1) hpfs hts hnew
    have hidx : ((fs.map Field.id).foldl addName (addName fields f.id)).idxOf f.id = (addName fields f.id).idxOf f.id :=
      idxOf_eq_of_mem (prefix_addNames _ _) (mem_addName.2 (.inl rfl))
    have hhead : numberFields ((fs.map Field.id).foldl addName (addName fields f.id)) (f :: fs) =
        { f with offset := fieldOffset ((addName fields f.id).idxOf f.id) } ::
          numberFields ((fs.map Field.id).foldl addName (addName fields f.id)) fs := by
      rw [numberFields, List.map_cons, hidx]
      rfl
    refine ⟨hnum, ?_, ?_⟩
    · rw [List.map_cons, List.foldl_cons, hhead, resolveFields, h.fieldSlot hs hm, hres]
      rfl
    · rw [List.map_cons, List.foldl_cons, List.foldl_cons, hhead, hafter, Members.addField, h.fieldSlot hs hm,
        h.fieldPlace hm]
      simp only [List.map_cons, List.reverse_cons, List.append_assoc, List.singleton_append, placeFields,
        List.foldl_cons, hif]
      rfl

theorem methodsErrors_eq_nil (hc : env.classNames = V.classNames) (ms : List Method) : ∀ {methods : List Ident}
    {s : Members}, Numbered fields methods s →
    (methodsErrors env s ms = [] ↔ (∀ m ∈ ms, V.Names m.ret) ∧ s.Takes fields (ms.map Method.id)) := by
  induction ms with
  | nil => exact fun _ => iff_of_true rfl ⟨nofun, List.nodup_nil, nofun⟩
  | cons m ms ih =>
    intro methods s h
    rw [methodsErrors, List.append_eq_nil_iff, List.append_eq_nil_iff, Env.typeNameErrors_eq_nil hc,
      h.methodErrors_eq_nil, List.forall_mem_cons, List.map_cons, takes_cons (addMethod_seen (env.level + 1) s m)]
    by_cases hm : m.id ∉ s.seen ∧ m.id ∉ fields
    · rw [ih (h.addMethod hm.1 hm.2 _)]
      exact and_and_and_comm
    · exact iff_of_false (fun he => hm he.1.2) fun ht => hm ht.2.1

/-- **What methods add to a class.** -/
theorem Numbered.addMethods (inherited : List Ident) (inner : Env) (ms : List Method) : ∀ {methods : List Ident}
    {s : Members}, Numbered fields methods s → s.Takes fields (ms.map Method.id) →
    (∀ m ∈ ms, m.id ∈ methods ↔ m.id ∈ inherited) →
    let names := (ms.map Method.id).foldl addName methods
    let after := ms.foldl (Members.addMethod 1) s
    Numbered fields names after ∧
      resolveMethods inner 1 s ms = (numberMethods names ms).map (Method.resolve inner) ∧
      (bodiesErrors inner 1 s ms = [] ↔ ∀ m ∈ numberMethods names ms, m.nameErrors inner = []) ∧
      after.table = ((numberMethods names ms).map Method.declares).reverse ++ s.table ∧
      after.layout = ⟨s.layout.fields, placeMethods inherited s.layout.methods (numberMethods names ms)⟩ := by
  induction ms with
  | nil =>
    intro methods s h _ _
    obtain ⟨T, ⟨ts, sigs⟩, seen⟩ := s
    exact ⟨h, rfl, iff_of_true rfl nofun, rfl, rfl⟩
  | cons m ms ih =>
    intro methods s h ht hi
    obtain ⟨⟨hs, hf⟩, hts⟩ := (takes_cons (addMethod_seen 1 s m)).1 ht
    obtain ⟨him, his⟩ := List.forall_mem_cons.1 hi
    have hnew : ∀ d ∈ ms, d.id ∈ addName methods m.id ↔ d.id ∈ inherited := fun d hd => by
      have hne : d.id ≠ m.id := by
        have := (hts.2 d.id (List.mem_map_of_mem hd)).1
        rw [addMethod_seen] at this
        exact fun he => this (List.mem_cons.2 (.inl he))
      rw [mem_addName, or_iff_right hne, his d hd]
    obtain ⟨hnum, hres, hbodies, htable, hlayout⟩ := ih (h.addMethod hs hf 1) hts hnew
    have hidx : ((ms.map Method.id).foldl addName (addName methods m.id)).idxOf m.id =
        (addName methods m.id).idxOf m.id := idxOf_eq_of_mem (prefix_addNames _ _) (mem_addName.2 (.inl rfl))
    have hhead : numberMethods ((ms.map Method.id).foldl addName (addName methods m.id)) (m :: ms) =
        { m with offset := methodOffset ((addName methods m.id).idxOf m.id) } ::
          numberMethods ((ms.map Method.id).foldl addName (addName methods m.id)) ms := by
      rw [numberMethods, List.map_cons, hidx]
      rfl
    rw [List.map_cons, List.foldl_cons, List.foldl_cons]
    dsimp only
    rw [hhead]
    refine ⟨hnum, ?_, ?_, ?_, ?_⟩
    · rw [resolveMethods, h.methodSlot hs hf, hres]
      rfl
    · rw [bodiesErrors, h.methodSlot hs hf, List.append_eq_nil_iff, hbodies, List.forall_mem_cons]
      rfl
    · rw [htable, Members.addMethod, h.methodSlot hs hf]
      simp only [List.map_cons, List.reverse_cons, List.append_assoc, List.singleton_append]
      rfl
    · rw [hlayout, Members.addMethod, h.methodSlot hs hf, h.methodPlace hf]
      simp only [placeMethods, List.foldl_cons, him]
      rfl

end

end Members

/-! ## Classes -/

/-- The environment between two classes finds what is visible there. -/
structure Env.ShowsClasses (env : Env) (V : View) : Prop extends env.Shows V where
  scopes : env.scopes = [classEntries V.classes]
  names_eq : V.names = []
  level_eq : V.level = 0
  count_eq : V.count = V.classes.length
  layouts : ∀ c, V.Declared c → env.layouts.lookup c = some (layoutOf V.classes c)
  numbered : ∀ c, V.Declared c → Members.Numbered (fieldNames V.classes c) (methodNames V.classes c)
    ⟨memberEntries V.classes c, layoutOf V.classes c, []⟩

theorem forall₂_iff_map {α β : Type} {R : α → β → Prop} {P : α → Prop} {g : α → β} (hR : ∀ a b, R a b ↔ P a ∧ b = g a) :
    ∀ (as : List α) (bs : List β), List.Forall₂ R as bs ↔ (∀ a ∈ as, P a) ∧ bs = as.map g
  | [], bs => by simp
  | a :: as, bs => by
    cases bs with
    | nil => simp
    | cons b bs =>
      rw [List.forall₂_cons, hR, forall₂_iff_map hR as bs, List.forall_mem_cons, List.map_cons, List.cons.injEq]
      exact and_and_and_comm

theorem Method.scoped_iff {env : Env} {V : View} (h : env.Shows V) (m m' : Method) :
    m.Scoped V m' ↔ m.nameErrors env = [] ∧ m' = m.resolve env := by
  have hlocals : ∀ {ds' : List Dec} {env : Env} {V : View}, env.Shows V → env.New (m.locals.map Dec.id) →
      (LocalsScoped V m.locals ds' ↔ localNameErrors env m.locals = [] ∧ ds' = resolveLocals env m.locals) :=
    fun hs hn => localsScoped_iff hs m.locals hn
  have herrors : m.nameErrors env = routineNameErrors env m.params m.locals m.body := rfl
  rw [herrors]
  refine ⟨fun hs => ?_, ?_⟩
  · cases hs with
    | mk routine =>
      obtain ⟨hr, rfl, rfl⟩ := (routineScoped_iff h m.params m.body hlocals).1 routine
      exact ⟨hr, rfl⟩
  · rintro ⟨hr, rfl⟩
    exact .mk ((routineScoped_iff h m.params m.body hlocals).2 ⟨hr, rfl, rfl⟩)

section

variable {env : Env} {V : View} {k : Class}

theorem Env.ShowsClasses.globals_eq (h : env.ShowsClasses V) : env.globals = classEntries V.classes := by
  rw [Env.globals, h.scopes]
  rfl

theorem Env.ShowsClasses.redeclared_eq (h : env.ShowsClasses V) (k : Class) :
    env.redeclared k = env.declaredHere k.id := by
  rw [Env.redeclared, h.globals_eq, Env.declaredHere, h.scopes]

theorem Env.Shows.superErrors_eq_nil (h : env.Shows V) :
    k.superErrors env = [] ↔ ∀ s, k.super = some s → V.Declared s := by
  unfold Class.superErrors
  cases k.super with
  | none => simp
  | some s =>
    have ht : (env.tables.lookup s).isSome ↔ V.Declared s :=
      ⟨h.declared s, fun hd => by rw [h.tables s hd]; rfl⟩
    by_cases hd : V.Declared s
    · simp [ht.2 hd, hd]
    · have hn : env.tables.lookup s = none :=
        Option.eq_none_iff_forall_ne_some.2 fun T hT => hd (ht.1 (Option.isSome_iff_exists.2 ⟨T, hT⟩))
      simp [hn, hd]

theorem Env.ShowsClasses.inherited_eq (h : env.ShowsClasses V) (hk : ∀ s, k.super = some s → V.Declared s) :
    env.inherited k = ⟨k.super.elim [] (memberEntries V.classes), k.super.elim .empty (layoutOf V.classes), []⟩ ∧
      Members.Numbered (k.super.elim [] (fieldNames V.classes)) (k.super.elim [] (methodNames V.classes))
        (env.inherited k) := by
  have heq : env.inherited k =
      ⟨k.super.elim [] (memberEntries V.classes), k.super.elim .empty (layoutOf V.classes), []⟩ := by
    unfold Env.inherited
    cases hs : k.super with
    | none => rfl
    | some s =>
      dsimp only
      rw [h.tables s (hk s hs), h.layouts s (hk s hs)]
      rfl
  refine ⟨heq, ?_⟩
  rw [heq]
  cases hs : k.super with
  | none => exact .empty
  | some s => exact h.numbered s (hk s hs)

theorem fieldNames_self (k : Class) (earlier : List Class) : fieldNames (k :: earlier) k.id =
    (k.fields.map Field.id).foldl addName (k.super.elim [] (fieldNames earlier)) := if_pos rfl

theorem methodNames_self (k : Class) (earlier : List Class) : methodNames (k :: earlier) k.id =
    (k.methods.map Method.id).foldl addName (k.super.elim [] (methodNames earlier)) := if_pos rfl

theorem ids_numberFields (names : List Ident) (fs : List Field) :
    (numberFields names fs).map Field.id = fs.map Field.id := by
  simp [numberFields]

theorem ids_numberMethods (names : List Ident) (ms : List Method) :
    (numberMethods names ms).map Method.id = ms.map Method.id := by
  simp [numberMethods]

/-- What the members of a class come to. -/
structure Env.Declares (env : Env) (V : View) (k : Class) : Prop where
  table : (env.members k).table = memberEntries (V.afterClass k).classes k.id
  layout : (env.members k).layout = layoutOf (V.afterClass k).classes k.id
  numbered : Members.Numbered (fieldNames (V.afterClass k).classes k.id) (methodNames (V.afterClass k).classes k.id)
    (env.members k)
  resolved : k.resolve env =
    { k.laidOut V.classes with methods := (k.laidOut V.classes).methods.map (Method.resolve (env.inClass k)) }
  bodies : bodiesErrors (env.inClass k) (env.level + 1) (env.withFields k) k.methods = [] ↔
    ∀ m ∈ (k.laidOut V.classes).methods, m.nameErrors (env.inClass k) = []

theorem Env.ShowsClasses.takes_fields (h : env.ShowsClasses V) (hk : ∀ s, k.super = some s → V.Declared s) :
    (env.inherited k).Takes (k.super.elim [] (methodNames V.classes)) (k.fields.map Field.id) ↔
      (k.fields.map Field.id).Nodup ∧ ∀ f ∈ k.fields, f.id ∉ k.super.elim [] (methodNames V.classes) := by
  rw [(h.inherited_eq hk).1, Members.Takes]
  simp

theorem Env.ShowsClasses.withFields (h : env.ShowsClasses V) (hp : ∀ f ∈ k.fields, f.ty.isMethod = false)
    (hk : ∀ s, k.super = some s → V.Declared s)
    (ht : (env.inherited k).Takes (k.super.elim [] (methodNames V.classes)) (k.fields.map Field.id)) :
    Members.Numbered (fieldNames (k :: V.classes) k.id) (k.super.elim [] (methodNames V.classes)) (env.withFields k) ∧
    resolveFields 1 (env.inherited k) k.fields = (k.laidOut V.classes).fields ∧
    env.withFields k =
      ⟨((k.laidOut V.classes).fields.map Field.declares).reverse ++ k.super.elim [] (memberEntries V.classes),
        ⟨placeFields (k.super.elim [] (fieldNames V.classes)) (k.super.elim .empty (layoutOf V.classes)).fields
          (k.laidOut V.classes).fields, (k.super.elim .empty (layoutOf V.classes)).methods⟩,
        (k.fields.map Field.id).reverse⟩ := by
  obtain ⟨heq, hnum⟩ := h.inherited_eq hk
  have hlevel : env.level + 1 = 1 := by rw [h.level, h.level_eq]
  have hadd := hnum.addFields (k.super.elim [] (fieldNames V.classes)) k.fields hp ht fun _ _ => Iff.rfl
  rw [← fieldNames_self] at hadd
  rw [Env.withFields, hlevel]
  refine ⟨hadd.1, hadd.2.1, hadd.2.2.trans ?_⟩
  rw [heq, List.append_nil]
  rfl

theorem Class.allowed_iff (h : env.ShowsClasses V) (hp : ∀ f ∈ k.fields, f.ty.isMethod = false) :
    k.Allowed V ↔ k.superErrors env = [] ∧ fieldsErrors env (env.inherited k) k.fields = [] ∧
      methodsErrors env (env.withFields k) k.methods = [] := by
  rw [h.superErrors_eq_nil]
  by_cases hk : ∀ s, k.super = some s → V.Declared s
  · rw [Members.fieldsErrors_eq_nil h.classNames k.fields (h.inherited_eq hk).2 hp]
    by_cases ht : (env.inherited k).Takes (k.super.elim [] (methodNames V.classes)) (k.fields.map Field.id)
    · obtain ⟨hnum, -, heq⟩ := h.withFields hp hk ht
      have htakes : (env.withFields k).Takes (fieldNames (k :: V.classes) k.id) (k.methods.map Method.id) ↔
          (k.methods.map Method.id).Nodup ∧ ∀ m ∈ k.methods,
            m.id ∉ k.fields.map Field.id ∧ m.id ∉ k.super.elim [] (fieldNames V.classes) := by
        rw [heq, Members.Takes, fieldNames_self]
        simp only [List.forall_mem_map, List.mem_reverse, mem_addNames, not_or]
        refine and_congr_right fun _ => forall₂_congr fun m _ => ?_
        tauto
      obtain ⟨hnodup, hfields⟩ := (h.takes_fields hk).1 ht
      rw [Members.methodsErrors_eq_nil h.classNames k.methods hnum, htakes]
      refine ⟨fun ha => ⟨hk, ⟨ha.types, ht⟩, ha.returns, ?_⟩, fun ⟨_, ⟨htypes, _⟩, hreturns, hm, hms⟩ => ?_⟩
      · obtain ⟨-, hm, hdisjoint⟩ := List.nodup_append.1 ha.distinct
        exact ⟨hm, fun m hmem => ⟨fun hf => hdisjoint _ hf _ (List.mem_map_of_mem hmem) rfl, ha.methods m hmem⟩⟩
      · refine ⟨hk, List.nodup_append.2 ⟨hnodup, hm, fun x hx y hy => ?_⟩, htypes, hreturns, hfields,
          fun m hmem => (hms m hmem).2⟩
        obtain ⟨m, hmem, rfl⟩ := List.mem_map.1 hy
        rintro rfl
        exact (hms m hmem).1 hx
    · refine iff_of_false (fun ha => ht ((h.takes_fields hk).2 ⟨?_, ha.fields⟩)) fun he => ht he.2.1.2
      exact (List.nodup_append.1 ha.distinct).1
  · exact iff_of_false (fun ha => hk ha.parent) fun he => hk he.1

theorem Env.ShowsClasses.declares (h : env.ShowsClasses V) (hp : ∀ f ∈ k.fields, f.ty.isMethod = false)
    (ha : k.Allowed V) : env.Declares V k := by
  obtain ⟨hfields, hmethods, hdisjoint⟩ := List.nodup_append.1 ha.distinct
  have hlevel : env.level + 1 = 1 := by rw [h.level, h.level_eq]
  obtain ⟨hnum, hres, heq⟩ := h.withFields hp ha.parent ((h.takes_fields ha.parent).2 ⟨hfields, ha.fields⟩)
  have htakes : (env.withFields k).Takes (fieldNames (k :: V.classes) k.id) (k.methods.map Method.id) := by
    refine ⟨hmethods, fun x hx => ?_⟩
    obtain ⟨m, hm, rfl⟩ := List.mem_map.1 hx
    have hnew : m.id ∉ k.fields.map Field.id := fun hf => hdisjoint _ hf _ hx rfl
    rw [heq, fieldNames_self, mem_addNames, List.mem_reverse]
    exact ⟨hnew, fun hf => hf.elim (ha.methods m hm) hnew⟩
  obtain ⟨hnum', hres', hbodies, htable, hlayout⟩ := hnum.addMethods (k.super.elim [] (methodNames V.classes))
    (env.inClass k) k.methods htakes fun _ _ => Iff.rfl
  rw [← methodNames_self] at hnum' hres' hbodies htable hlayout
  have hmembers : env.members k = k.methods.foldl (Members.addMethod 1) (env.withFields k) := by
    rw [Env.members, hlevel]
  have htable' : (env.members k).table = memberEntries (V.afterClass k).classes k.id := by
    rw [hmembers, htable, heq]
    show _ = if (k.laidOut V.classes).id = k.id then _ else _
    rw [if_pos (show (k.laidOut V.classes).id = k.id from rfl), Class.ownEntries, List.reverse_append,
      List.append_assoc]
    rfl
  have hlayout' : (env.members k).layout = layoutOf (V.afterClass k).classes k.id := by
    rw [hmembers, hlayout, heq]
    show _ = if (k.laidOut V.classes).id = k.id then _ else _
    rw [if_pos (show (k.laidOut V.classes).id = k.id from rfl)]
    rfl
  refine ⟨htable', hlayout', ?_, ?_, ?_⟩
  · rw [hmembers]
    have hf : fieldNames (V.afterClass k).classes k.id = fieldNames (k :: V.classes) k.id := by
      rw [fieldNames_self, ← ids_numberFields (fieldNames (k :: V.classes) k.id)]
      exact fieldNames_self (k.laidOut V.classes) V.classes
    have hm : methodNames (V.afterClass k).classes k.id = methodNames (k :: V.classes) k.id := by
      rw [methodNames_self, ← ids_numberMethods (methodNames (k :: V.classes) k.id)]
      exact methodNames_self (k.laidOut V.classes) V.classes
    rw [hf, hm]
    exact hnum'
  · have hentry : env.superEntry k = (k.laidOut V.classes).superEntry := by
      rw [Env.superEntry]
      show _ = k.super.bind fun s => (classEntries V.classes).lookup s
      cases hs : k.super with
      | none => rfl
      | some s =>
        have hd := ha.parent s hs
        rw [Option.bind_some, Option.bind_some, Env.instantiable, h.tables s hd, h.globals_eq]
        rfl
    have hlayout'' : some (env.members k).layout = (k.laidOut V.classes).layout := by
      rw [hmembers, hlayout, heq]
      rfl
    rw [Class.resolve, hlevel, hres, hres', hentry, hlayout'']
    rfl
  · rw [hlevel]
    exact hbodies

/-! ## After a class -/

theorem View.declared_afterClass {c : Ident} : (V.afterClass k).Declared c ↔ c = k.id ∨ V.Declared c := by
  unfold View.Declared View.afterClass
  rw [List.map_cons, List.mem_cons]
  rfl

/-- A list of classes is looked through from the latest one. -/
theorem of_ne_afterClass {c : Ident} (hc : c ≠ k.id) :
    memberEntries (V.afterClass k).classes c = memberEntries V.classes c ∧
    layoutOf (V.afterClass k).classes c = layoutOf V.classes c ∧
    fieldNames (V.afterClass k).classes c = fieldNames V.classes c ∧
    methodNames (V.afterClass k).classes c = methodNames V.classes c := by
  have hne : ¬ (k.laidOut V.classes).id = c := fun he => hc he.symm
  exact ⟨if_neg hne, if_neg hne, if_neg hne, if_neg hne⟩

theorem Env.ShowsClasses.afterClass (h : env.ShowsClasses V) (hd : env.Declares V k) :
    (env.afterClass k).ShowsClasses (V.afterClass k) := by
  have hscopes : (env.afterClass k).scopes = [classEntries (V.afterClass k).classes] := by
    have hlayout : (env.members k).layout = (k.laidOut V.classes).layout.getD .empty :=
      hd.layout.trans (if_pos rfl)
    show (env.insert k.id ⟨env.level, .cls (env.members k).layout, env.next⟩).scopes = _
    rw [Env.insert, h.scopes, hlayout, h.level, h.level_eq, h.next, h.count_eq]
    rfl
  have htables : ∀ c, (V.afterClass k).Declared c →
      (env.afterClass k).tables.lookup c = some (memberEntries (V.afterClass k).classes c) := by
    intro c hc
    by_cases hck : c = k.id
    · subst hck
      rw [← hd.table]
      exact List.lookup_cons_self
    · rw [(of_ne_afterClass hck).1, ← h.tables c ((View.declared_afterClass.1 hc).resolve_left hck)]
      exact lookup_cons_of_ne hck _ _
  refine ⟨⟨fun x => ?_, ?_, ?_, ?_, ?_, htables, fun c hc => ?_, fun c hc => ?_⟩, hscopes, h.names_eq, h.level_eq, ?_,
    fun c hc => ?_, fun c hc => ?_⟩
  · have hnames : (V.afterClass k).visible = classEntries (V.afterClass k).classes := by
      show V.names ++ _ = _
      rw [h.names_eq]
      rfl
    rw [hnames, Env.lookup, hscopes, List.findSome?_cons]
    cases (classEntries (V.afterClass k).classes).lookup x <;> rfl
  · exact (insert_level env _ _).trans h.level
  · show wrapOffset (env.next - 1) = declOffset (V.count + 1)
    rw [h.next, declOffset_succ]
  · exact (Env.insert_classNames env _ _).trans h.classNames
  · rw [hscopes]
    exact List.cons_ne_nil _ _
  · rw [View.declared_afterClass]
    by_cases hck : c = k.id
    · exact .inl hck
    · exact .inr (h.declared c (by rwa [← lookup_cons_of_ne hck (env.members k).table env.tables]))
  · rw [Env.globals, hscopes]
    rfl
  · show V.count + 1 = V.classes.length + 1
    rw [h.count_eq]
  · by_cases hck : c = k.id
    · subst hck
      rw [← hd.layout]
      exact List.lookup_cons_self
    · rw [(of_ne_afterClass hck).2.1, ← h.layouts c ((View.declared_afterClass.1 hc).resolve_left hck)]
      exact lookup_cons_of_ne hck _ _
  · by_cases hck : c = k.id
    · subst hck
      have hn := hd.numbered
      rw [← hd.table, ← hd.layout]
      exact ⟨hn.fieldCount, hn.methodCount, hn.entry, hn.listed⟩
    · obtain ⟨hm, hl, hf, hs⟩ := of_ne_afterClass (V := V) hck
      rw [hm, hl, hf, hs]
      exact h.numbered c ((View.declared_afterClass.1 hc).resolve_left hck)

theorem Env.ShowsClasses.inClass (h : env.ShowsClasses V) (hd : env.Declares V k) :
    (env.inClass k).Shows (V.inClass k) := by
  have hafter := h.afterClass hd
  refine ⟨fun x => ?_, ?_, hafter.next, hafter.classNames, List.cons_ne_nil _ _, hafter.tables, hafter.declared,
    fun c hc => ?_⟩
  · show ((env.members k).table :: (env.afterClass k).scopes).findSome? (List.lookup x) =
      ((memberEntries (V.afterClass k).classes k.id ++ V.names) ++ classEntries (V.afterClass k).classes).lookup x
    rw [hd.table, h.names_eq, List.append_nil, List.lookup_append, List.findSome?_cons, hafter.scopes,
      List.findSome?_cons]
    cases (memberEntries (V.afterClass k).classes k.id).lookup x with
    | some e => rfl
    | none => cases (classEntries (V.afterClass k).classes).lookup x <;> rfl
  · show env.level + 1 = V.level + 1
    rw [h.level]
  · rw [Env.globals]
    show List.lookup c (((env.members k).table :: (env.afterClass k).scopes).getLast?.getD []) = _
    rw [hafter.scopes]
    rfl

/-- **A new class is scoped exactly if its names are all right, and as it is resolved.** -/
theorem Class.scoped_iff (h : env.ShowsClasses V) (hp : ∀ f ∈ k.fields, f.ty.isMethod = false)
    (hx : env.declaredHere k.id = false) (k' : Class) : k.Scoped V k' ↔ k.nameErrors env = [] ∧ k' = k.resolve env := by
  rw [Class.nameErrors, h.redeclared_eq, hx, if_neg Bool.false_ne_true, List.append_nil]
  simp only [List.append_eq_nil_iff]
  by_cases ha : k.Allowed V
  · have hd := h.declares hp ha
    have hbodies := forall₂_iff_map (Method.scoped_iff (h.inClass hd)) (k.laidOut V.classes).methods
    obtain ⟨hsuper, hfields, hmethods⟩ := (Class.allowed_iff h hp).1 ha
    rw [hd.bodies, hd.resolved]
    refine ⟨fun hs => ?_, ?_⟩
    · cases hs with
      | mk _ bodies =>
        obtain ⟨hb, rfl⟩ := (hbodies _).1 bodies
        exact ⟨⟨⟨⟨hsuper, hfields⟩, hmethods⟩, hb⟩, rfl⟩
    · rintro ⟨⟨-, hb⟩, rfl⟩
      exact .mk ha ((hbodies _).2 ⟨hb, rfl⟩)
  · refine iff_of_false (fun hs => ?_) fun he => ha ((Class.allowed_iff h hp).2 ⟨he.1.1.1.1, he.1.1.1.2, he.1.1.2⟩)
    cases hs with
    | mk allowed _ => exact ha allowed

/-! ## Classes in a row, and programs -/

theorem Env.afterClass_isOpen (h : env.scopes ≠ []) (k : Class) : (env.afterClass k).scopes ≠ [] :=
  insert_isOpen h k.id _

theorem Env.new_cons_class (h : env.scopes ≠ []) (k : Class) {xs : List Ident} :
    env.New (k.id :: xs) ↔ env.declaredHere k.id = false ∧ (env.afterClass k).New xs := new_cons h _

theorem Env.new_classes {ys : List Ident} : ∀ (ks : List Class) {env : Env}, env.scopes ≠ [] →
    (env.New (ks.map Class.id ++ ys) ↔ env.New (ks.map Class.id) ∧ (ks.foldl Env.afterClass env).New ys)
  | [], env, _ => (and_iff_right ⟨List.nodup_nil, nofun⟩).symm
  | k :: ks, env, h => by
    rw [List.map_cons, List.cons_append, new_cons_class h, new_cons_class h, new_classes ks (afterClass_isOpen h k),
      and_assoc, List.foldl_cons]

theorem Class.Scoped.allowed {k' : Class} (hs : k.Scoped V k') : k.Allowed V := by
  cases hs
  assumption

theorem Class.allowed_of_nameErrors (h : env.ShowsClasses V) (hp : ∀ f ∈ k.fields, f.ty.isMethod = false)
    (he : k.nameErrors env = []) : k.Allowed V := by
  simp only [Class.nameErrors, List.append_eq_nil_iff] at he
  exact (Class.allowed_iff h hp).2 ⟨he.1.1.1.1, he.1.1.2, he.1.2⟩

theorem plain_cons {ks : List Class} (h : Plain (fieldTypes (k :: ks))) :
    (∀ f ∈ k.fields, f.ty.isMethod = false) ∧ Plain (fieldTypes ks) :=
  ⟨fun _ hf => h _ (List.mem_append_left _ (List.mem_map_of_mem hf)), fun t ht => h t (List.mem_append_right _ ht)⟩

theorem Env.ShowsClasses.afterClasses : ∀ (ks : List Class) {env : Env} {V : View}, env.ShowsClasses V →
    Plain (fieldTypes ks) → classesNameErrors env ks = [] →
    (ks.foldl Env.afterClass env).ShowsClasses (V.afterClasses ks)
  | [], _, _, h, _, _ => h
  | k :: ks, _, _, h, hp, hn => by
    obtain ⟨hk, hks⟩ := List.append_eq_nil_iff.1 hn
    obtain ⟨hpk, hpks⟩ := plain_cons hp
    exact afterClasses ks (h.afterClass (h.declares hpk (Class.allowed_of_nameErrors h hpk hk))) hpks hks

/-- **New classes are scoped exactly if their names are all right, and as they are resolved.** -/
theorem classesScoped_iff : ∀ (ks : List Class) {env : Env} {V : View} {ks' : List Class}, env.ShowsClasses V →
    Plain (fieldTypes ks) → env.New (ks.map Class.id) →
    (ClassesScoped V ks ks' ↔ classesNameErrors env ks = [] ∧ ks' = resolveClasses env ks)
  | [], env, V, ks', _, _, _ => by
    refine ⟨fun hs => ?_, ?_⟩
    · cases hs
      exact ⟨rfl, rfl⟩
    · rintro ⟨-, rfl⟩
      exact .nil
  | k :: ks, env, V, ks', h, hp, hn => by
    obtain ⟨hk, hks⟩ := (Env.new_cons_class h.isOpen k).1 hn
    obtain ⟨hpk, hpks⟩ := plain_cons hp
    have hiff := Class.scoped_iff h hpk hk
    rw [classesNameErrors, resolveClasses, List.append_eq_nil_iff]
    refine ⟨fun hs => ?_, ?_⟩
    · cases hs with
      | cons head tail =>
        have hafter := h.afterClass (h.declares hpk head.allowed)
        obtain ⟨he, rfl⟩ := (hiff _).1 head
        obtain ⟨hes, rfl⟩ := (classesScoped_iff ks hafter hpks hks).1 tail
        exact ⟨⟨he, hes⟩, rfl⟩
    · rintro ⟨⟨he, hes⟩, rfl⟩
      have hafter := h.afterClass (h.declares hpk (Class.allowed_of_nameErrors h hpk he))
      exact .cons ((hiff _).2 ⟨he, rfl⟩) ((classesScoped_iff ks hafter hpks hks).2 ⟨hes, rfl⟩)

/-- Classes whose names are all right have new names. -/
theorem new_of_classesNameErrors : ∀ (ks : List Class) {env : Env} {V : View}, env.ShowsClasses V →
    Plain (fieldTypes ks) → classesNameErrors env ks = [] → env.New (ks.map Class.id)
  | [], _, _, _, _, _ => ⟨List.nodup_nil, nofun⟩
  | k :: ks, env, V, h, hp, hn => by
    obtain ⟨hk, hks⟩ := List.append_eq_nil_iff.1 hn
    obtain ⟨hpk, hpks⟩ := plain_cons hp
    have hafter := h.afterClass (h.declares hpk (Class.allowed_of_nameErrors h hpk hk))
    refine (Env.new_cons_class h.isOpen k).2 ⟨?_, new_of_classesNameErrors ks hafter hpks hks⟩
    rw [Class.nameErrors, h.redeclared_eq] at hk
    cases hx : env.declaredHere k.id with
    | false => rfl
    | true => simp [hx] at hk

theorem Env.showsClasses_initial (names : List Ident) : (Env.initial names).ShowsClasses (.initial names) where
  names x := rfl
  level := rfl
  next := by
    show (-2 : Int) = declOffset 0
    decide
  classNames := rfl
  isOpen := List.cons_ne_nil _ _
  tables c hc := nomatch hc
  declared c hc := nomatch hc
  globals c hc := nomatch hc
  scopes := rfl
  names_eq := rfl
  level_eq := rfl
  count_eq := rfl
  layouts c hc := nomatch hc
  numbered c hc := nomatch hc

theorem Env.new_initial {names xs : List Ident} : (Env.initial names).New xs ↔ xs.Nodup := and_iff_left fun _ _ => rfl

end

/-- **A program is scoped exactly if its names are all right, and as it is resolved.** -/
theorem Program.scoped_iff {p q : Program} (hp : Plain (fieldTypes p.classes)) :
    p.Scoped q ↔ p.nameErrors = [] ∧ q = p.resolve := by
  cases p with
  | expr body =>
    have hbody := @Expr.scoped_iff _ _ (Env.showsClasses_initial []).toShows body
    refine ⟨fun hs => ?_, ?_⟩
    · cases hs with
      | expr hs =>
        obtain ⟨he, rfl⟩ := hbody.1 hs
        exact ⟨he, rfl⟩
    · rintro ⟨he, rfl⟩
      exact .expr (hbody.2 ⟨he, rfl⟩)
  | letIn ks ds body =>
    have hstart := Env.showsClasses_initial (ks.map Class.id)
    have hclasses := fun {ks' : List Class} hn => @classesScoped_iff ks _ _ ks' hstart hp hn
    have hnew := @Env.new_classes (ds.map Dec.id) ks _ hstart.isOpen
    rw [Env.new_initial] at hnew
    refine ⟨fun hs => ?_, ?_⟩
    · cases hs with
      | letIn distinct classes decs hs =>
        obtain ⟨hks, hds⟩ := hnew.1 distinct
        obtain ⟨hn, rfl⟩ := (hclasses hks).1 classes
        have hafter := (hstart.afterClasses ks hp hn).toShows
        obtain ⟨hdn, rfl⟩ := (localsScoped_iff hafter ds hds).1 decs
        obtain ⟨he, rfl⟩ := (body.scoped_iff (hafter.afterAll ds hds)).1 hs
        refine ⟨?_, rfl⟩
        rw [Program.nameErrors, List.append_eq_nil_iff, List.append_eq_nil_iff]
        exact ⟨⟨hn, hdn⟩, he⟩
    · rintro ⟨he, rfl⟩
      rw [Program.nameErrors, List.append_eq_nil_iff, List.append_eq_nil_iff] at he
      obtain ⟨⟨hn, hdn⟩, he⟩ := he
      have hafter := (hstart.afterClasses ks hp hn).toShows
      have hks := new_of_classesNameErrors ks hstart hp hn
      have hds := new_of_localNameErrors ds hafter.isOpen hdn
      exact .letIn (hnew.2 ⟨hks, hds⟩) ((hclasses hks).2 ⟨hn, rfl⟩) ((localsScoped_iff hafter ds hds).2 ⟨hdn, rfl⟩)
        ((body.scoped_iff (hafter.afterAll ds hds)).2 ⟨he, rfl⟩)

/-- **Nothing is wrong with the names of a program exactly if it is lexically scoped**, and then it is resolved as the
rules of scoping say. -/
theorem names_right_iff_scoped {source : List Char} {p : Program} (h : parse source = .ok p) :
    (p.nameErrors = [] ↔ ∃ q, p.Scoped q) ∧ ∀ q, p.Scoped q → q = p.resolve := by
  have hiff := fun q => Program.scoped_iff (q := q) (parse_sound h).2.2
  exact ⟨⟨fun he => ⟨p.resolve, (hiff _).2 ⟨he, rfl⟩⟩, fun ⟨q, hq⟩ => ((hiff q).1 hq).1⟩, fun q hq => ((hiff q).1 hq).2⟩

/-- A source where a parameter hides a variable and a field, and a method calls one that comes after it. -/
def hidingSource : List Char :=
  ("let class A (x: int) { fun get: int (x: int) other() + x; fun other: int () x; } var x: A := new A(1); " ++
    "fun f: int (x: int) let var y: int := x; in f(y); in x.get(f(2));").toList

theorem hidingSource_scoped : ∃ p, parse hidingSource = .ok p ∧ p.nameErrors = [] ∧ p.Scoped p.resolve := by
  have hparsed : (parse hidingSource).toOption.any (fun p => decide (p.nameErrors = [])) = true := by decide +kernel
  cases hp : parse hidingSource with
  | error e =>
    rw [hp] at hparsed
    cases hparsed
  | ok p =>
    rw [hp] at hparsed
    have hnames : p.nameErrors = [] := of_decide_eq_true hparsed
    obtain ⟨hiff, hone⟩ := names_right_iff_scoped hp
    obtain ⟨q, hq⟩ := hiff.1 hnames
    exact ⟨p, rfl, hnames, hone q hq ▸ hq⟩

end FoolLang
