import FoolLang.Code.Program
import FoolLang.Proofs.Members
import FoolLang.Proofs.Subtypes
/-!
# Inherit — what the members of a class come to

The fields and methods of a class are added to what it inherits, one after the other.  What was there before keeps its
position, with a type that fits the one it had (`Extends`); the slot of a method holds the routine of the
method that its name finds (`Serves`).
-/
namespace FoolLang

open Text (maxInt32)

/-- A class has the members of another one, at the same positions, with types that fit theirs. -/
structure Extends (h : Hierarchy) (fields methods : List Ident) (l : Layout) (fields' methods' : List Ident)
    (l' : Layout) : Prop where
  fieldNames : fields <+: fields'
  methodNames : methods <+: methods'
  field : ∀ (i : Nat) (t : Ty), l.fields[i]? = some t → ∃ t' : Ty, l'.fields[i]? = some t' ∧ t'.Fits h t
  method : ∀ (j : Nat) (sig : Signature), l.methods[j]? = some sig →
    ∃ sig' : Signature, l'.methods[j]? = some sig' ∧ sig'.Fits h sig

theorem Extends.refl (h : Hierarchy) (fields methods : List Ident) (l : Layout) :
    Extends h fields methods l fields methods l :=
  ⟨List.prefix_refl _, List.prefix_refl _, fun _ t ht => ⟨t, ht, .inl rfl⟩, fun _ sig hs => ⟨sig, hs, .inl rfl⟩⟩

theorem Extends.trans {h : Hierarchy} {f₁ f₂ f₃ m₁ m₂ m₃ : List Ident} {l₁ l₂ l₃ : Layout}
    (h₁ : Extends h f₁ m₁ l₁ f₂ m₂ l₂) (h₂ : Extends h f₂ m₂ l₂ f₃ m₃ l₃) : Extends h f₁ m₁ l₁ f₃ m₃ l₃ := by
  refine ⟨h₁.fieldNames.trans h₂.fieldNames, h₁.methodNames.trans h₂.methodNames, fun i t ht => ?_, fun j sig hs => ?_⟩
  · obtain ⟨t₂, ht₂, hr₂⟩ := h₁.field i t ht
    obtain ⟨t₃, ht₃, hr₃⟩ := h₂.field i t₂ ht₂
    exact ⟨t₃, ht₃, hr₃.trans hr₂⟩
  · obtain ⟨sig₂, hs₂, hr₂⟩ := h₁.method j sig hs
    obtain ⟨sig₃, hs₃, hr₃⟩ := h₂.method j sig₂ hs₂
    exact ⟨sig₃, hs₃, hr₃.trans hr₂⟩

namespace Members

variable {fields methods : List Ident} {s : Members} {env : Env}

theorem fieldSlot_of_errors {f : Field} (h : s.fieldErrors f = []) : ∃ off, s.fieldSlot f.id = .ok off := by
  unfold fieldErrors at h
  split at h
  · exact ⟨_, ‹_›⟩
  · cases h
  · cases h

theorem methodSlot_of_errors {m : Method} (h : s.methodErrors m = []) : ∃ off, s.methodSlot m.id = .ok off := by
  unfold methodErrors at h
  split at h
  · exact ⟨_, ‹_›⟩
  · cases h
  · cases h

theorem addField_methods (level : Nat) (s : Members) (f : Field) :
    (s.addField level f).layout.methods = s.layout.methods := by
  unfold addField
  split <;> rfl

theorem addMethod_fields (level : Nat) (s : Members) (m : Method) :
    (s.addMethod level m).layout.fields = s.layout.fields := by
  unfold addMethod
  split <;> rfl

theorem addFields_methods (level : Nat) : ∀ (fs : List Field) (s : Members),
    (fs.foldl (addField level) s).layout.methods = s.layout.methods
  | [], _ => rfl
  | f :: fs, s => (addFields_methods level fs _).trans (addField_methods level s f)

theorem addMethods_fields (level : Nat) : ∀ (ms : List Method) (s : Members),
    (ms.foldl (addMethod level) s).layout.fields = s.layout.fields
  | [], _ => rfl
  | m :: ms, s => (addMethods_fields level ms _).trans (addMethod_fields level s m)

/-! ## Fields -/

theorem Tidy.addFields (hl : env.level = 0) (fs : List Field) : ∀ {fields : List Ident} {s : Members},
    Tidy fields methods s → fieldsErrors env s fs = [] → (∀ f ∈ fs, f.ty.isMethod = false) →
    fields.length + fs.length ≤ maxInt32 →
    Tidy ((fs.map Field.id).foldl addName fields) methods (fs.foldl (Members.addField 1) s) := by
  induction fs with
  | nil => exact fun ht _ _ _ => ht
  | cons f fs ih =>
    intro fields s ht he hp hb
    rw [List.length_cons] at hb
    obtain ⟨hf, hfs⟩ := List.append_eq_nil_iff.1 he
    obtain ⟨-, hf⟩ := List.append_eq_nil_iff.1 hf
    obtain ⟨hpf, hpfs⟩ := List.forall_mem_cons.1 hp
    obtain ⟨off, hoff⟩ := fieldSlot_of_errors hf
    have hle := length_addName_le fields f.id
    rw [hl] at hfs
    exact ih (ht.addField hoff hpf (by omega)) hfs hpfs (by omega)

/-- A field that was there is declared again or left as it is. -/
theorem Tidy.addFields_keeps (hl : env.level = 0) (fs : List Field) {i : Nat} {t : Ty} : ∀ {fields : List Ident}
    {s : Members}, Tidy fields methods s → fieldsErrors env s fs = [] → (∀ f ∈ fs, f.ty.isMethod = false) →
    fields.length + fs.length ≤ maxInt32 → s.layout.fields[i]? = some t →
    (∃ f ∈ resolveFields 1 s fs, f.offset = fieldOffset i) ∨
      (fs.foldl (Members.addField 1) s).layout.fields[i]? = some t := by
  induction fs with
  | nil => exact fun _ _ _ _ hi => .inr hi
  | cons f fs ih =>
    intro fields s ht he hp hb hi
    rw [List.length_cons] at hb
    obtain ⟨hf, hfs⟩ := List.append_eq_nil_iff.1 he
    obtain ⟨-, hf⟩ := List.append_eq_nil_iff.1 hf
    obtain ⟨hpf, hpfs⟩ := List.forall_mem_cons.1 hp
    obtain ⟨off, hoff⟩ := fieldSlot_of_errors hf
    obtain ⟨i₀, rfl, hpos, -⟩ := ht.fieldSlot hoff
    have hle := length_addName_le fields f.id
    have hle₀ := hpos.le_length
    rw [hl] at hfs
    by_cases hii : i = i₀
    · refine .inl ⟨_, List.mem_cons_self, ?_⟩
      rw [hii]
      show ((s.fieldSlot f.id).toOption.getD f.offset) = fieldOffset i₀
      rw [hoff]
      rfl
    · have hkeep : (s.addField 1 f).layout.fields[i]? = some t := by
        have hlen : s.layout.fields.length ≤ maxInt32 := by
          rw [← ht.ofFields.length]
          omega
        rw [addField_eq hoff hlen, fieldPosition_fieldOffset (by omega)]
        show (place i₀ f.ty s.layout.fields)[i]? = some t
        rw [getElem?_place (by rw [← ht.ofFields.length]; exact hle₀), if_neg hii, hi]
      rcases ih (ht.addField hoff hpf (by omega)) hfs hpfs (by omega) hkeep with ⟨g, hg, ho⟩ | hr
      · exact .inl ⟨g, List.mem_cons_of_mem _ hg, ho⟩
      · exact .inr hr

/-! ## Methods -/

theorem Tidy.addMethods (hl : env.level = 0) (ms : List Method) : ∀ {methods : List Ident} {s : Members},
    Tidy fields methods s → methodsErrors env s ms = [] → methods.length + ms.length ≤ maxInt32 →
    Tidy fields ((ms.map Method.id).foldl addName methods) (ms.foldl (Members.addMethod 1) s) := by
  induction ms with
  | nil => exact fun ht _ _ => ht
  | cons m ms ih =>
    intro methods s ht he hb
    rw [List.length_cons] at hb
    obtain ⟨hm, hms⟩ := List.append_eq_nil_iff.1 he
    obtain ⟨-, hm⟩ := List.append_eq_nil_iff.1 hm
    obtain ⟨off, hoff⟩ := methodSlot_of_errors hm
    have hle := length_addName_le methods m.id
    rw [hl] at hms
    exact ih (ht.addMethod hoff (by omega)) hms (by omega)

/-- A method that was there is declared again or left as it is. -/
theorem Tidy.addMethods_keeps (hl : env.level = 0) (inner : Env) (ms : List Method) {j : Nat} {sig : Signature} :
    ∀ {methods : List Ident} {s : Members}, Tidy fields methods s → methodsErrors env s ms = [] →
    methods.length + ms.length ≤ maxInt32 → s.layout.methods[j]? = some sig →
    (∃ m ∈ resolveMethods inner 1 s ms, m.offset = methodOffset j) ∨
      (ms.foldl (Members.addMethod 1) s).layout.methods[j]? = some sig := by
  induction ms with
  | nil => exact fun _ _ _ hj => .inr hj
  | cons m ms ih =>
    intro methods s ht he hb hj
    rw [List.length_cons] at hb
    obtain ⟨hm, hms⟩ := List.append_eq_nil_iff.1 he
    obtain ⟨-, hm⟩ := List.append_eq_nil_iff.1 hm
    obtain ⟨off, hoff⟩ := methodSlot_of_errors hm
    obtain ⟨j₀, rfl, hpos, -⟩ := ht.methodSlot hoff
    have hle := length_addName_le methods m.id
    have hle₀ := hpos.le_length
    rw [hl] at hms
    by_cases hjj : j = j₀
    · refine .inl ⟨{ m.resolve inner with offset := methodOffset j₀ }, ?_, by rw [hjj]⟩
      rw [resolveMethods, hoff]
      exact List.mem_cons_self
    · have hkeep : (s.addMethod 1 m).layout.methods[j]? = some sig := by
        have hlen : s.layout.methods.length ≤ maxInt32 := by
          rw [← ht.ofMethods.length]
          omega
        rw [addMethod_eq hoff hlen, toNat_methodOffset (by omega)]
        show (place j₀ m.signature s.layout.methods)[j]? = some sig
        rw [getElem?_place (by rw [← ht.ofMethods.length]; exact hle₀), if_neg hjj, hj]
      rcases ih (ht.addMethod hoff (by omega)) hms (by omega) hkeep with ⟨g, hg, ho⟩ | hr
      · exact .inl ⟨g, by rw [resolveMethods]; exact List.mem_cons_of_mem _ hg, ho⟩
      · exact .inr hr

theorem not_seen_of_methodsErrors : ∀ (ms : List Method) {s : Members}, methodsErrors env s ms = [] →
    ∀ m ∈ ms, m.id ∉ s.seen
  | [], _, _ => fun _ hm => nomatch hm
  | m :: ms, s, he => by
    obtain ⟨hm, hms⟩ := List.append_eq_nil_iff.1 he
    obtain ⟨-, hm⟩ := List.append_eq_nil_iff.1 hm
    refine List.forall_mem_cons.2 ⟨fun hs => ?_, fun d hd hs => ?_⟩
    · obtain ⟨off, hoff⟩ := methodSlot_of_errors hm
      rw [methodSlot, if_pos hs] at hoff
      cases hoff
    · refine not_seen_of_methodsErrors ms hms d hd ?_
      rw [addMethod_seen]
      exact List.mem_cons_of_mem _ hs

end Members

/-! ## Dispatch tables -/

/-- The methods of a class have these routines, the first of them number `f`. -/
def Implemented (I : Method → Nat → Prop) (env : Env) : Nat → List Method → Prop
  | _, [] => True
  | f, m :: ms => I m f ∧ Implemented I env (f + (m.resolve env).routines) ms

theorem Implemented.imp {I J : Method → Nat → Prop} {env : Env} (hIJ : ∀ m f, I m f → J m f) :
    ∀ {ms : List Method} {f : Nat},
    Implemented I env f ms → Implemented J env f ms
  | [], _, _ => trivial
  | m :: _, f, ⟨hm, hms⟩ => ⟨hIJ m f hm, hms.imp hIJ⟩

/-- The method a name finds in a class, or else where it is looked for next. -/
def declaring (c : Ident) (ms : List Method) (owner : Ident → Option (Ident × Method)) (x : Ident) :
    Option (Ident × Method) :=
  match ms.find? (fun d => decide (d.id = x)) with
  | some d => some (c, d)
  | none => owner x

/-- The slot of each method holds the routine of the method that its name finds. -/
structure Serves (I : Ident → Method → Nat → Prop) (owner : Ident → Option (Ident × Method)) (methods : List Ident)
    (sigs : List Signature) (table : List Label) : Prop where
  length : table.length = methods.length
  slot : ∀ (j : Nat) (m : Ident), methods[j]? = some m → ∃ (c : Ident) (d : Method) (f : Nat), owner m = some (c, d) ∧
    table[j]? = some (.routine f) ∧ sigs[j]? = some d.signature ∧ I c d f

namespace Serves

variable {I : Ident → Method → Nat → Prop} {owner : Ident → Option (Ident × Method)} {fields methods : List Ident}
  {sigs : List Signature} {table : List Label} {c : Ident} {f : Nat}

theorem nil : Serves I owner [] [] [] := ⟨rfl, fun _ _ h => nomatch h⟩

theorem congr {owner' : Ident → Option (Ident × Method)} (h : Serves I owner methods sigs table)
    (ho : ∀ x, owner x = owner' x) : Serves I owner' methods sigs table := by
  refine ⟨h.length, fun j m hj => ?_⟩
  rw [← ho]
  exact h.slot j m hj

theorem add (h : Serves I owner methods sigs table) (hl : methods.length = sigs.length) (hn : methods.Nodup)
    {m : Method}
    {j : Nat} (hj : Slot methods j m.id) (hm : I c m f) :
    Serves I (fun x => if x = m.id then some (c, m) else owner x) (addName methods m.id) (place j m.signature sigs)
      (place j (.routine f) table) := by
  have hle := hj.le_length
  rw [hj.addName_eq]
  refine ⟨length_place h.length, fun i x hi => ?_⟩
  rw [getElem?_place hle] at hi
  rw [getElem?_place (by rw [h.length]; exact hle), getElem?_place (by rw [← hl]; exact hle)]
  by_cases hij : i = j
  · rw [if_pos hij] at hi ⊢
    obtain rfl := Option.some.inj hi
    exact ⟨c, m, f, if_pos rfl, rfl, by rw [if_pos hij], hm⟩
  · rw [if_neg hij] at hi ⊢
    have hne : x ≠ m.id := by
      rintro rfl
      exact hij (hj.eq_of_getElem? hn hi)
    obtain ⟨c', d, g, ho, ht, hs, hd⟩ := h.slot i x hi
    exact ⟨c', d, g, by rw [if_neg hne, ho], ht, by rw [if_neg hij, hs], hd⟩

/-- **The methods of a class fill its dispatch table.** -/
theorem addMethods {env inner : Env} (hl : env.level = 0) (ms : List Method) : ∀ {methods : List Ident} {s : Members}
    {table : List Label} {f : Nat} {owner : Ident → Option (Ident × Method)}, Members.Tidy fields methods s →
    methodsErrors env s ms = [] → methods.length + ms.length ≤ maxInt32 → Implemented (I c) inner f ms →
    Serves I owner methods s.layout.methods table →
    Serves I (declaring c ms owner) ((ms.map Method.id).foldl addName methods)
      (ms.foldl (Members.addMethod 1) s).layout.methods (fillTable table f (resolveMethods inner 1 s ms)) := by
  induction ms with
  | nil => exact fun _ _ _ _ hs => hs
  | cons m ms ih =>
    intro methods s table f owner ht he hb hI hs
    rw [List.length_cons] at hb
    obtain ⟨hm, hms⟩ := List.append_eq_nil_iff.1 he
    obtain ⟨-, hm⟩ := List.append_eq_nil_iff.1 hm
    obtain ⟨off, hoff⟩ := Members.methodSlot_of_errors hm
    obtain ⟨j, rfl, hpos, -⟩ := ht.methodSlot hoff
    have hle := length_addName_le methods m.id
    have hle₀ := hpos.le_length
    have hnew : ∀ d ∈ ms, d.id ≠ m.id := fun d hd hdm => by
      have := Members.not_seen_of_methodsErrors ms hms d hd
      rw [Members.addMethod_seen, hdm] at this
      exact this List.mem_cons_self
    rw [hl] at hms
    have hadd := hs.add ht.ofMethods.length ht.ofMethods.distinct hpos hI.1
    have hs' : Serves I (fun x => if x = m.id then some (c, m) else owner x) (addName methods m.id)
        (s.addMethod 1 m).layout.methods (place j (.routine f) table) := by
      have hlen : s.layout.methods.length ≤ maxInt32 := by
        rw [← ht.ofMethods.length]
        omega
      rw [Members.addMethod_eq hoff hlen, toNat_methodOffset (by omega)]
      exact hadd
    have hrest := ih (ht.addMethod hoff (by omega)) hms (by omega) hI.2 hs'
    rw [resolveMethods, hoff, fillTable]
    dsimp only
    rw [toNat_methodOffset (by omega)]
    refine hrest.congr fun x => ?_
    unfold declaring
    rw [List.find?_cons]
    by_cases hx : m.id = x
    · have hnone : ms.find? (fun d => decide (d.id = x)) = none :=
        List.find?_eq_none.2 fun d hd => by simpa [hx] using hnew d hd
      simp [hnone, hx]
    · simp [hx, Ne.symm hx]

end Serves
end FoolLang
