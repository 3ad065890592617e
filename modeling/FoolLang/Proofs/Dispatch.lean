import FoolLang.Proofs.Declaring
import FoolLang.Proofs.Programs
import FoolLang.Proofs.Straight
import FoolLang.Proofs.VirtualTables
/-!
# Dispatch — dispatch tables agree with class layouts

The symbol pass gives methods their offsets, and the code generator fills the tables anew, adding a label at the end
where a slot is missing.  Both number the methods of a class by the same names (`Fills`), so a table has a slot for each
method of the layout, and the slot holds the routine of the nearest class that declares a method with its number
(`dispatch_tables_agree`).
-/
namespace FoolLang

open Text (maxInt32)

/-- The nearest class, from a class on upwards, that declares a method with this offset, and that method. -/
inductive Nearest (cs : List Class) (offset : Int) : Class → Class → Method → Prop
  | own {c : Class} {m : Method} : m ∈ c.methods → m.offset = offset → Nearest cs offset c c m
  | up {c s d : Class} {m : Method} : (∀ x ∈ c.methods, x.offset ≠ offset) → s ∈ cs → c.super = some s.id →
      Nearest cs offset s d m → Nearest cs offset c d m

/-- The number of the routine that is generated for a method of a class. -/
def RoutineOf (cs : List Class) (d : Class) (m : Method) (f : Nat) : Prop :=
  ∃ i k, cs[i]? = some d ∧ d.methods[k]? = some m ∧ f = classRoutines (cs.take i) + methodRoutines (d.methods.take k)

/-- A table whose slots hold the routines of the nearest declarations. -/
def Serving (cs : List Class) (c : Class) (table : List Label) : Prop :=
  ∀ (j : Nat) (l : Label), table[j]? = some l ↔
    ∃ d m f, Nearest cs j c d m ∧ RoutineOf cs d m f ∧ l = .routine f

/-! ## Filling a table -/

/-- The methods of a class whose offsets are the numbers of their names, which are added to the inherited ones. -/
structure Fills (names inherited : List Ident) (ms : List Method) : Prop where
  all : (ms.map Method.id).foldl addName inherited = names
  distinct : (ms.map Method.id).Nodup
  offset : ∀ m ∈ ms, m.offset = (names.idxOf m.id : Nat)

namespace Fills

variable {names inherited : List Ident} {m : Method} {ms : List Method}

theorem tail (h : Fills names inherited (m :: ms)) : Fills names (addName inherited m.id) ms :=
  ⟨h.all, (List.nodup_cons.1 h.distinct).2, fun d hd => h.offset d (List.mem_cons_of_mem _ hd)⟩

theorem toNat_offset (h : Fills names inherited ms) (hm : m ∈ ms) : m.offset.toNat = names.idxOf m.id := by
  rw [h.offset m hm, Int.toNat_natCast]

theorem head (h : Fills names inherited (m :: ms)) : m.offset.toNat = (addName inherited m.id).idxOf m.id := by
  rw [h.toNat_offset List.mem_cons_self]
  refine idxOf_eq_of_mem ?_ (mem_addName.2 (.inl rfl))
  rw [← h.all]
  exact prefix_addNames _ _

theorem ne_head (h : Fills names inherited (m :: ms)) {d : Method} (hd : d ∈ ms) :
    names.idxOf d.id ≠ names.idxOf m.id := fun he => by
  have hmem : d.id ∈ names := by
    rw [← h.all]
    exact (mem_addNames _).2 (.inr (List.mem_cons_of_mem _ (List.mem_map_of_mem hd)))
  have hid : d.id = m.id := (List.idxOf_inj hmem).1 he
  have hnew := (List.nodup_cons.1 h.distinct).1
  rw [← hid] at hnew
  exact hnew (List.mem_map_of_mem hd)

theorem head_le (h : Fills names inherited (m :: ms)) : m.offset.toNat ≤ inherited.length := by
  rw [h.head, idxOf_addName]
  split
  · exact List.idxOf_le_length
  · exact Nat.le_refl _

theorem length_place {table : List Label} {l : Label} (h : Fills names inherited (m :: ms))
    (ht : table.length = inherited.length) :
    (place m.offset.toNat l table).length = (addName inherited m.id).length := by
  rw [h.head, idxOf_addName, length_addName]
  unfold place
  by_cases hm : m.id ∈ inherited
  · have hlt := List.idxOf_lt_length_of_mem hm
    rw [if_pos hm, if_pos hm, if_pos (by omega), List.length_set, ht]
  · rw [if_neg hm, if_neg hm, if_neg (by omega), List.length_append, ht]
    rfl

theorem length_fillTable : ∀ {ms : List Method} {inherited : List Ident} {table : List Label} {f : Nat},
    Fills names inherited ms → table.length = inherited.length → (fillTable table f ms).length = names.length
  | [], _, _, _, h, ht => by
    obtain rfl := h.all
    exact ht
  | m :: ms, _, _, _, h, ht => by
    rw [fillTable]
    exact length_fillTable h.tail (h.length_place ht)

/-- What is not declared again stays. -/
theorem getElem?_fillTable_of_ne {j : Nat} : ∀ {ms : List Method} {inherited : List Ident} {table : List Label}
    {f : Nat}, Fills names inherited ms → table.length = inherited.length → (∀ m ∈ ms, m.offset ≠ (j : Int)) →
    (fillTable table f ms)[j]? = table[j]?
  | [], _, _, _, _, _, _ => rfl
  | m :: ms, _, table, f, h, ht, hj => by
    obtain ⟨hm, hms⟩ := List.forall_mem_cons.1 hj
    have hle := h.head_le
    rw [fillTable, getElem?_fillTable_of_ne h.tail (h.length_place ht) hms, getElem?_place (by omega), if_neg]
    rw [h.toNat_offset List.mem_cons_self]
    rw [h.offset m List.mem_cons_self] at hm
    omega

/-- What is declared has its own routine. -/
theorem getElem?_fillTable {j : Nat} : ∀ {ms : List Method} {inherited : List Ident} {table : List Label} {f k : Nat},
    Fills names inherited ms → table.length = inherited.length → ms[k]? = some m → m.offset = (j : Int) →
    (fillTable table f ms)[j]? = some (.routine (f + methodRoutines (ms.take k)))
  | [], _, _, _, _, _, _, hk, _ => nomatch hk
  | d :: ms, _, table, f, 0, h, ht, hk, hj => by
    obtain rfl := Option.some.inj hk
    have hle := h.head_le
    have hrest : ∀ x ∈ ms, x.offset ≠ (j : Int) := fun x hx => by
      have hne := h.ne_head hx
      have ho := h.offset d List.mem_cons_self
      rw [h.offset x (List.mem_cons_of_mem _ hx)]
      omega
    rw [fillTable, getElem?_fillTable_of_ne h.tail (h.length_place ht) hrest, getElem?_place (by omega), hj,
      if_pos (Int.toNat_natCast j).symm]
    rfl
  | d :: ms, _, table, f, k + 1, h, ht, hk, hj => by
    rw [fillTable, getElem?_fillTable h.tail (h.length_place ht) hk hj, List.take_succ_cons, methodRoutines,
      Nat.add_assoc]

end Fills

/-! ## One class -/

section

variable {all before after : List Class} {c : Class} {tables : Tables} {names inherited : List Ident}

theorem RoutineOf.of_append (hall : all = before ++ c :: after) (hids : (all.map Class.id).Nodup) {m : Method}
    {f : Nat} : RoutineOf all c m f ↔
      ∃ k, c.methods[k]? = some m ∧ f = classRoutines before + methodRoutines (c.methods.take k) := by
  have hc : all[before.length]? = some c := by
    rw [hall, List.getElem?_append_right (Nat.le_refl _), Nat.sub_self]
    rfl
  have htake : all.take before.length = before := by
    rw [hall, List.take_left]
  constructor
  · rintro ⟨i, k, hi, hk, rfl⟩
    have hlt := (List.getElem?_eq_some_iff.1 hi).1
    obtain rfl : i = before.length :=
      (List.getElem?_inj hlt hids.of_map).1 (hi.trans hc.symm)
    exact ⟨k, hk, by rw [htake]⟩
  · rintro ⟨k, hk, rfl⟩
    exact ⟨before.length, k, hc, hk, by rw [htake]⟩

/-- **The table of a class serves it**, if that of its superclass serves that. -/
theorem Fills.serving (hall : all = before ++ c :: after) (hids : (all.map Class.id).Nodup)
    (h : Fills names inherited c.methods) (hlen : (c.superTable tables).length = inherited.length)
    (hsuper : ∀ (j : Nat) (l : Label), (c.superTable tables)[j]? = some l ↔ ∃ s ∈ all, c.super = some s.id ∧
      ∃ d m f, Nearest all j s d m ∧ RoutineOf all d m f ∧ l = .routine f) :
    Serving all c (c.dispatchTable tables (classRoutines before)) := by
  intro j l
  rw [Class.dispatchTable]
  by_cases hown : ∃ m ∈ c.methods, m.offset = (j : Int)
  · obtain ⟨m, hm, hj⟩ := hown
    constructor
    · intro hl
      obtain ⟨k, hk⟩ := List.mem_iff_getElem?.1 hm
      rw [h.getElem?_fillTable hlen hk hj] at hl
      exact ⟨c, m, _, .own hm hj, (RoutineOf.of_append hall hids).2 ⟨k, hk, rfl⟩, (Option.some.inj hl).symm⟩
    · rintro ⟨d, x, f, hnear, hx, rfl⟩
      cases hnear with
      | own _ hxj =>
        obtain ⟨k, hk, rfl⟩ := (RoutineOf.of_append hall hids).1 hx
        exact h.getElem?_fillTable hlen hk hxj
      | up hne => exact absurd hj (hne m hm)
  · have hne : ∀ m ∈ c.methods, m.offset ≠ (j : Int) := fun m hm hj => hown ⟨m, hm, hj⟩
    rw [h.getElem?_fillTable_of_ne hlen hne, hsuper]
    constructor
    · rintro ⟨s, hs, hsc, d, m, f, hnear, hf⟩
      exact ⟨d, m, f, .up hne hs hsc hnear, hf⟩
    · rintro ⟨d, m, f, hnear, hf⟩
      cases hnear with
      | own hm hj => exact absurd hj (hne m hm)
      | up _ hs hsc hnear => exact ⟨_, hs, hsc, d, m, f, hnear, hf⟩

end

/-! ## All classes -/

/-- The tables so far serve the classes declared so far. -/
def Dispatching (all : List Class) (V : View) (tables : Tables) : Prop :=
  ∀ s, V.Declared s → ∃ d ∈ all, d.id = s ∧ ∃ table, tables.lookup s = some table ∧
    table.length = (methodNames V.classes s).length ∧ Serving all d table

section

variable {all before after : List Class} {env : Env} {V : View} {k : Class} {tables : Tables}

theorem Dispatching.superTable (h : Dispatching all V tables) (hids : (all.map Class.id).Nodup)
    (hk : ∀ s, k.super = some s → V.Declared s) :
    (k.superTable tables).length = (k.super.elim [] (methodNames V.classes)).length ∧
      ∀ (j : Nat) (l : Label), (k.superTable tables)[j]? = some l ↔ ∃ s ∈ all, k.super = some s.id ∧
        ∃ d m f, Nearest all j s d m ∧ RoutineOf all d m f ∧ l = .routine f := by
  unfold Class.superTable
  cases hs : k.super with
  | none => exact ⟨rfl, fun j l => ⟨nofun, nofun⟩⟩
  | some s =>
    obtain ⟨d, hd, rfl, table, ht, hlen, hserves⟩ := h s (hk s hs)
    dsimp only
    rw [ht, Option.getD_some]
    refine ⟨hlen, fun j l => (hserves j l).trans ⟨fun hl => ⟨d, hd, rfl, hl⟩, ?_⟩⟩
    rintro ⟨x, hx, hxd, hl⟩
    obtain rfl : x = d := List.inj_on_of_nodup_map hids hx hd (Option.some.inj hxd).symm
    exact hl

/-- The methods of a class without errors have the numbers of their names. -/
theorem Env.Declares.fills (h : env.Declares V k) (ha : k.Allowed V)
    (hb : declaredIn V.classes + k.declared ≤ maxInt32) :
    Fills (methodNames (V.afterClass k).classes k.id) (k.super.elim [] (methodNames V.classes))
      (k.resolve env).methods := by
  have hmethods : (k.resolve env).methods =
      (numberMethods (methodNames (k :: V.classes) k.id) k.methods).map (Method.resolve (env.inClass k)) := by
    rw [h.resolved]
    rfl
  have hids : (k.resolve env).methods.map Method.id = k.methods.map Method.id := by
    rw [hmethods, List.map_map, ← ids_numberMethods (methodNames (k :: V.classes) k.id)]
    rfl
  have hnames : methodNames (V.afterClass k).classes k.id = methodNames (k :: V.classes) k.id := by
    rw [methodNames_self, ← ids_numberMethods (methodNames (k :: V.classes) k.id)]
    exact methodNames_self (k.laidOut V.classes) V.classes
  refine ⟨?_, ?_, fun m hm => ?_⟩
  · rw [hids, hnames, methodNames_self]
  · rw [hids]
    exact (List.nodup_append.1 ha.distinct).2.1
  · rw [hmethods] at hm
    obtain ⟨d, hd, rfl⟩ := List.mem_map.1 hm
    obtain ⟨x, hx, rfl⟩ := List.mem_map.1 hd
    have hle := length_methodNames_le (k :: V.classes) k.id
    rw [declaredIn] at hle
    have hidx := List.idxOf_le_length (a := x.id) (l := methodNames (k :: V.classes) k.id)
    rw [hnames]
    exact methodOffset_eq (by omega)

/-- **One more class keeps this**: its table has a slot for each method, and serves it. -/
theorem Dispatching.afterClass (h : Dispatching all V tables) (hids : (all.map Class.id).Nodup)
    (hall : all = before ++ k.resolve env :: after) (hd : env.Declares V k) (ha : k.Allowed V)
    (hb : declaredIn V.classes + k.declared ≤ maxInt32) :
    let table := (k.resolve env).dispatchTable tables (classRoutines before)
    table.length = (env.members k).layout.methods.length ∧ Serving all (k.resolve env) table ∧
      Dispatching all (V.afterClass k) ((k.id, table) :: tables) := by
  obtain ⟨hlen, hsuper⟩ := h.superTable hids ha.parent
  have hfills := hd.fills ha hb
  have hserves := hfills.serving hall hids hlen hsuper
  have hcount := hfills.length_fillTable (f := classRoutines before) hlen
  refine ⟨hcount.trans hd.numbered.methodCount.symm, hserves, fun s hs => ?_⟩
  by_cases hsk : s = k.id
  · subst hsk
    refine ⟨k.resolve env, ?_, rfl, _, List.lookup_cons_self, hcount, hserves⟩
    rw [hall]
    exact List.mem_append_right _ List.mem_cons_self
  · obtain ⟨d, hd', hds, table, ht, hlen', hserves'⟩ := h s ((View.declared_afterClass.1 hs).resolve_left hsk)
    refine ⟨d, hd', hds, table, (lookup_cons_of_ne hsk _ _).trans ht, ?_, hserves'⟩
    rw [(of_ne_afterClass hsk).2.2.2, hlen']

theorem declaredIn_afterClass (V : View) (k : Class) :
    declaredIn (V.afterClass k).classes = declaredIn V.classes + k.declared := by
  show (k.laidOut V.classes).declared + declaredIn V.classes = _
  rw [Nat.add_comm, Class.declared, Class.declared]
  simp [Class.laidOut, numberFields, numberMethods]

end

theorem classRoutines_append (c : Class) : ∀ cs : List Class,
    classRoutines (cs ++ [c]) = classRoutines cs + c.routines
  | [] => Nat.add_comm _ _
  | d :: cs => by rw [List.cons_append, classRoutines, classRoutines_append c cs, classRoutines, Nat.add_assoc]

/-- **The tables of all classes**: each has a slot for every method of the layout of its class, and serves it. -/
theorem Dispatching.classes {all : List Class} (hids : (all.map Class.id).Nodup) : ∀ (ks before : List Class)
    {env : Env} {V : View} {tables : Tables}, env.ShowsClasses V → env.Neat → Dispatching all V tables →
    Plain (fieldTypes ks) → classesNameErrors env ks = [] → declaredIn V.classes + declaredIn ks ≤ maxInt32 →
    all = before ++ resolveClasses env ks → ∀ {pre post : List Class} {c : Class},
    resolveClasses env ks = pre ++ c :: post →
    let table := c.dispatchTable (tables.after (classRoutines before) pre) (classRoutines (before ++ pre))
    (∃ l, (ks.foldl Env.afterClass env).layouts.lookup c.id = some l ∧ c.layout = some l ∧
      table.length = l.methods.length) ∧ Serving all c table
  | [], _, _, _, _, _, _, _, _, _, _, _, pre, _, _, hc => by cases pre <;> cases hc
  | k :: ks, before, env, V, tables, hv, hneat, h, hp, hn, hb, hall, pre, post, c, hc => by
    obtain ⟨hk, hks⟩ := List.append_eq_nil_iff.1 hn
    obtain ⟨hpk, hpks⟩ := plain_cons hp
    obtain ⟨-, hnew, -⟩ := Class.nameErrors_eq_nil hk
    have ha := Class.allowed_of_nameErrors hv hpk hk
    have hd := hv.declares hpk ha
    have hneat' := hneat.afterClass hnew
    rw [declaredIn] at hb
    rw [resolveClasses] at hall hc
    obtain ⟨hlen, hserves, hnext⟩ := h.afterClass hids hall hd ha (by omega)
    cases pre with
    | nil =>
      obtain ⟨rfl, -⟩ := List.cons.inj hc
      rw [List.append_nil]
      have hlater := (hneat'.afterClasses ks hks).2
      exact ⟨⟨(env.members k).layout, hlater.layouts _ _ List.lookup_cons_self, rfl, hlen⟩, hserves⟩
    | cons d pre =>
      obtain ⟨rfl, hpost⟩ := List.cons.inj hc
      have hrest := classes hids ks (before ++ [k.resolve env]) (hv.afterClass hd) hneat' hnext hpks hks
        (by rw [declaredIn_afterClass]; omega) (by rw [hall, List.append_assoc]; rfl) hpost
      rw [classRoutines_append, List.append_assoc] at hrest
      exact hrest

/-! ## The code of the tables -/

theorem classCode_append : ∀ (cs ds : List Class) (tables : Tables) (f : Nat), classCode tables f (cs ++ ds) =
    classCode tables f cs ++ classCode (tables.after f cs) (f + classRoutines cs) ds
  | [], _, _, _ => rfl
  | c :: cs, ds, tables, f => by
    rw [List.cons_append, classCode, classCode, classCode_append cs ds, classRoutines, ← Nat.add_assoc,
      List.append_assoc]
    rfl

/-- The code of a program up to the table of one of its classes. -/
theorem Program.table_in_code {p : Program} {before after : List Class} {c : Class} (memory : Nat)
    (hc : p.resolve.classes = before ++ c :: after) : ∃ rest, p.resolve.code memory =
      .push 0 :: classCode [] 0 before ++
        (Class.tableCode (c.dispatchTable (Tables.after [] 0 before) (classRoutines before)) ++ rest) := by
  cases p with
  | expr body => cases before <;> cases hc
  | letIn cs ds body =>
    have hcs : resolveClasses (letIn cs ds body).initialEnv cs = before ++ c :: after := hc
    have happend := classCode_append before (c :: after) [] 0
    rw [classCode, Nat.zero_add] at happend
    rw [Program.resolve, Program.code, hcs, happend]
    simp only [List.append_assoc, List.cons_append]
    exact ⟨_, rfl⟩

theorem methodRoutineCode_infix (memory : Nat) {m : Method} : ∀ {ms : List Method} {k f i : Nat}, ms[i]? = some m →
    ∃ k', m.routineCode memory k' (f + methodRoutines (ms.take i)) <:+: methodRoutineCode memory k f ms
  | [], _, _, _, hi => nomatch hi
  | d :: ms, k, f, 0, hi => by
    obtain rfl := Option.some.inj hi
    exact ⟨k, [], methodRoutineCode memory (k + d.labels) (f + d.routines) ms, rfl⟩
  | d :: ms, k, f, i + 1, hi => by
    obtain ⟨k', hin⟩ := methodRoutineCode_infix memory (k := k + d.labels) (f := f + d.routines) (i := i) hi
    rw [List.take_succ_cons, methodRoutines, ← Nat.add_assoc]
    exact ⟨k', hin.trans (List.suffix_append _ _).isInfix⟩

theorem classRoutineCode_infix (memory : Nat) {d : Class} : ∀ {cs : List Class} {k f i : Nat}, cs[i]? = some d →
    ∃ k', methodRoutineCode memory k' (f + classRoutines (cs.take i)) d.methods <:+: classRoutineCode memory k f cs
  | [], _, _, _, hi => nomatch hi
  | c :: cs, k, f, 0, hi => by
    obtain rfl := Option.some.inj hi
    exact ⟨k, [], classRoutineCode memory (k + c.labels) (f + c.routines) cs, rfl⟩
  | c :: cs, k, f, i + 1, hi => by
    obtain ⟨k', hin⟩ := classRoutineCode_infix memory (k := k + c.labels) (f := f + c.routines) (i := i) hi
    rw [List.take_succ_cons, classRoutines, ← Nat.add_assoc]
    exact ⟨k', hin.trans (List.suffix_append _ _).isInfix⟩

/-- The label of a routine stands for the start of the code that is generated for a method, which comes after that of
the routines inside it. -/
def EntryOf (code : Code) (memory : Nat) (m : Method) (f : Nat) : Prop :=
  ∃ k pre post, pre ++ m.routineCode memory k f ++ post = code ∧
    code.address (.routine f) = pre.size + (localRoutineCode memory k (f + 1) m.locals).size

theorem RoutineOf.entry {p : Program} {d : Class} {m : Method} {f : Nat} (h : RoutineOf p.resolve.classes d m f)
    (memory : Nat) : EntryOf (p.resolve.code memory) memory m f := by
  obtain ⟨i, j, hi, hj, rfl⟩ := h
  rw [Program.resolve_classes] at hi ⊢
  obtain ⟨k₁, hd⟩ := classRoutineCode_infix memory (k := 0) (f := 0) hi
  obtain ⟨k, hm⟩ := methodRoutineCode_infix memory (k := k₁)
    (f := classRoutines ((resolveClasses p.initialEnv p.classes).take i)) hj
  rw [Nat.zero_add] at hd
  obtain ⟨pre, post, hcode⟩ := (hm.trans hd).trans
    ((List.prefix_append _ _).isInfix.trans (p.routines_suffix memory).isInfix)
  refine ⟨k, pre, post, hcode, ?_⟩
  rw [Method.routineCode, FoolLang.routineCode] at hcode
  simp only [List.append_assoc, List.cons_append] at hcode
  rw [← List.append_assoc] at hcode
  rw [Code.address_of_define hcode, Code.size_append]
  rw [count_define_program]
  exact Label.among_le_one _ _ _ _ _

namespace Machine

variable {code rest : Code} {m : Machine} {h : Nat}

theorem Before.classCode : ∀ (cs : List Class) {tables : Tables} {f : Nat} {m : Machine} {h : Nat},
    m.Before code (FoolLang.classCode tables f cs ++ rest) → m.HeapTo h →
    Attains code (FoolLang.classCode tables f cs).size (fun m' => m'.Before code rest ∧ ∃ h', m'.HeapTo h') m
  | [], _, _, _, h, hb, hm => .here ⟨hb, h, hm⟩
  | c :: cs, tables, f, m, h, hb, hm => by
    rw [FoolLang.classCode, List.append_assoc] at hb
    rw [FoolLang.classCode, Code.size_append]
    exact (hb.tableCode _ hm).bind fun m₁ h₁ => classCode cs h₁.1 h₁.2.heap

/-- The labels of a table lie at consecutive addresses of the heap, as the places they stand for. -/
structure StoresTable (code : Code) (table : List Label) (base : Nat) (m : Machine) : Prop where
  inHeap : ∃ h, m.HeapTo h ∧ base + table.length ≤ h
  slots : ∀ j l, table[j]? = some l → m.memory.get? (base + j) = some (.ofNat (code.address l))

theorem Tabled.storesTable {table : List Label} {m' : Machine} (h' : Tabled code table h m m') :
    m'.StoresTable code table h := ⟨⟨_, h'.heap, Nat.le_refl _⟩, h'.slots⟩

/-- **The start of a program builds the tables** of its classes, one after the other. -/
theorem attains_table {cs : List Class} {table : List Label} {memory : Nat} (hm : memory ≤ maxInt32)
    (hcode : code = .push 0 :: classCode [] 0 cs ++ (Class.tableCode table ++ rest)) :
    (Machine.fresh memory).Attains code (Code.size (.push 0 :: classCode [] 0 cs ++ Class.tableCode table)) fun m =>
      m.Before code rest ∧ ∃ base, m.top = some (.ofNat base) ∧ m.StoresTable code table base := by
  have hfresh := HeapTo.fresh hm
  have hb : (Machine.fresh memory).Before code (.push 0 :: classCode [] 0 cs ++ (Class.tableCode table ++ rest)) :=
    ⟨[], by rw [hcode]; rfl, rfl⟩
  have hclasses := (hb.push hfresh).bind fun m₁ ⟨hb₁, hp₁⟩ =>
    Before.classCode cs hb₁ (hp₁.heapTo hfresh (Nat.le_succ memory))
  rw [Code.size_append, Code.size_push, Nat.add_comm (Code.size _) 1]
  exact hclasses.bind fun m₂ ⟨hb₂, h₂, hm₂⟩ =>
    (hb₂.tableCode table hm₂).mono fun m' ⟨hb', ht'⟩ => ⟨hb', h₂, ht'.top, ht'.storesTable⟩

/-- **A call finds its target**: from the cell that points to a table, a slot is loaded. -/
theorem Before.target {table : List Label} {base a j : Nat} {l : Label} (ht : m.StoresTable code table base)
    (hj : table[j]? = some l) (htop : m.top = some (.ofNat a)) (ha : m.memory.get? a = some (.ofNat base))
    (hb : m.Before code (.op .lw :: Line.loadAt j ++ rest)) : Attains code 4 (fun m' => m'.Before code rest ∧
      m'.sp = m.sp ∧ m'.top = some (.ofNat (code.address l))) m := by
  obtain ⟨⟨h, hm, hle⟩, hslots⟩ := ht
  have hlt := (List.getElem?_eq_some_iff.1 hj).1
  have hin := Memory.lt_of_get? htop
  refine (hb.lw hm htop ha).bind (n := 1) (k := 3) fun m₁ ⟨hb₁, hp₁⟩ => ?_
  have hm₁ := hp₁.heapTo hm (by omega)
  have hlt₁ := hp₁.lt hm
  have hslot : m₁.memory.get? (base + j) = some (.ofNat (code.address l)) := by
    rw [hp₁.cells _ (by omega), hslots j l hj]
  refine (hb₁.loadAt hm₁ hp₁.top hslot (by omega)).mono fun m' ⟨hb', hsp', htop'⟩ => ⟨hb', ?_, htop'⟩
  have hsp₁ := hp₁.sp
  omega

end Machine

/-! ## Programs -/

theorem Program.nodup_classes {p : Program} (hp : Plain (fieldTypes p.classes))
    (hn : classesNameErrors p.initialEnv p.classes = []) : (p.resolve.classes.map Class.id).Nodup := by
  have hids : ∀ (ks : List Class) (env : Env), (resolveClasses env ks).map Class.id = ks.map Class.id := by
    intro ks
    induction ks with
    | nil => exact fun _ => rfl
    | cons k ks ih => exact fun env => congrArg (k.id :: ·) (ih _)
  rw [p.resolve_classes, hids]
  exact (new_of_classesNameErrors p.classes (Env.showsClasses_initial _) hp hn).1

/-- **Dispatch tables agree with class layouts.**  In a program without errors in its names, the table of a class has
one label for each method of its layout; slot `j` holds the entry of the routine of the method with offset `j` in the
nearest class that declares one; and the code of the class stores the labels at consecutive addresses of the heap, from
the value of the class on, where a call loads its target. -/
theorem dispatch_tables_agree {source : List Char} {p : Program} (hp : parse source = .ok p)
    (hb : Text.byteLength source ≤ maxInt32) (hn : p.nameErrors = []) {before after : List Class} {c : Class}
    (hc : p.resolve.classes = before ++ c :: after) :
    let table := c.dispatchTable (Tables.after [] 0 before) (classRoutines before)
    (∃ l, p.classTable.layouts.lookup c.id = some l ∧ c.layout = some l ∧ table.length = l.methods.length) ∧
    Serving p.resolve.classes c table ∧
    ∀ memory ≤ maxInt32,
      let code := p.resolve.code memory
      (∀ limit instrs, Assembly.assemble code.text limit = .ok instrs → instrs.toArray = code.instrs) ∧
      (∀ d m f, RoutineOf p.resolve.classes d m f → EntryOf code memory m f) ∧
      (∃ rest, code = .push 0 :: classCode [] 0 before ++ (Class.tableCode table ++ rest) ∧
        (Machine.fresh memory).Attains code (Code.size (.push 0 :: classCode [] 0 before ++ Class.tableCode table))
          fun m => m.Before code rest ∧ ∃ base, m.top = some (.ofNat base) ∧ m.StoresTable code table base) ∧
      ∀ (m : Machine) (base a j : Nat) (l : Label) (rest : Code), m.StoresTable code table base → table[j]? = some l →
        m.top = some (.ofNat a) → m.memory.get? a = some (.ofNat base) →
        m.Before code (.op .lw :: Line.loadAt j ++ rest) → m.Attains code 4 fun m' =>
          m'.Before code rest ∧ m'.sp = m.sp ∧ m'.top = some (.ofNat (code.address l)) := by
  obtain ⟨-, hfew, hplain⟩ := parse_sound hp
  obtain ⟨hn, -⟩ := List.append_eq_nil_iff.1 hn
  obtain ⟨hn, -⟩ := List.append_eq_nil_iff.1 hn
  have hids := Program.nodup_classes hplain hn
  have hstart : Dispatching p.resolve.classes (.initial (p.classes.map Class.id)) [] := fun s hs => nomatch hs
  have htable := Dispatching.classes hids p.classes [] (Env.showsClasses_initial _) (Env.neat_initial _) hstart
    hplain hn (by show 0 + _ ≤ _; omega) p.resolve_classes (p.resolve_classes.symm.trans hc)
  rw [p.classTable_eq]
  refine ⟨htable.1, htable.2, fun memory hm => ⟨fun limit instrs ha => ?_, fun d m f hf => hf.entry memory, ?_, ?_⟩⟩
  · have hw := wellFormed_program hm (Program.resolve_fits (offsetsFit_of_parse hp))
    exact congrArg List.toArray (hw.of_assemble ha).1
  · obtain ⟨rest, hcode⟩ := Program.table_in_code memory hc
    exact ⟨rest, hcode, Machine.attains_table hm hcode⟩
  · exact fun m base a j l rest ht hj htop ha hb => hb.target ht hj htop ha

/-- A source where a class inherits one method and declares another one again, which is called. -/
def inheritedSource : List Char :=
  "let class A () { fun f: int () 1; fun g: int () 2; } ".toList ++
    ("class B extends A () { fun g: int () 3; } ".toList ++ "var b: B := new B(); in b.g();".toList)

/-- After 50 instructions the object is on top that `g` is called on: it points to the table of B at address 2. -/
theorem inheritedSource_dispatches : ∃ p a b m, parse inheritedSource = .ok p ∧ p.nameErrors = [] ∧
    p.resolve.classes = [a, b] ∧ Serving [a, b] b [.routine 0, .routine 2] ∧
    (∃ l, b.layout = some l ∧ l.methods.length = 2) ∧
    Machine.run (p.resolve.code 100).instrs 50 (.fresh 100) = (m, .running) ∧
    ∃ m', Machine.run (p.resolve.code 100).instrs 4 m = (m', .running) ∧
      m'.top = some (.ofNat ((p.resolve.code 100).address (.routine 2))) := by
  have hparsed : ((parse inheritedSource).toOption.any (fun p => decide (p.nameErrors = []) &&
      decide (p.resolve.classes.length = 2) &&
      ((p.resolve.classes.drop 1).all fun b => decide (b.dispatchTable (Tables.after [] 0 (p.resolve.classes.take 1))
        (classRoutines (p.resolve.classes.take 1)) = [.routine 0, .routine 2])) &&
      (let code := p.resolve.code 100
       let r := Machine.run code.instrs 50 (.fresh 100)
       decide (r.2 = .running) && decide ((Machine.run code.instrs 4 r.1).2 = .running) &&
        decide (code.drop 50 = .op .lw :: Line.loadAt 1 ++ code.drop 54) &&
        decide (r.1.ip = Code.size (code.take 50) ∧ r.1.hp = .ofNat 5 ∧ 5 ≤ r.1.sp ∧ r.1.sp ≤ r.1.memory.size ∧
          r.1.memory.size ≤ maxInt32 ∧ r.1.top = some (.ofNat 4) ∧ r.1.memory.get? 4 = some (.ofNat 2) ∧
          r.1.memory.get? 2 = some (.ofNat (code.address (.routine 0))) ∧
          r.1.memory.get? 3 = some (.ofNat (code.address (.routine 2)))))) &&
      decide (Text.byteLength inheritedSource ≤ maxInt32)) = true := by
    decide +kernel
  obtain ⟨hparsed, hbytes⟩ := Bool.and_eq_true_iff.1 hparsed
  obtain ⟨p, hp, hm⟩ := exists_of_any hparsed
  simp only [Bool.and_eq_true, decide_eq_true_eq, List.all_eq_true] at hm
  obtain ⟨⟨⟨hn, htwo⟩, htable⟩, ⟨⟨hrunning, hstill⟩, hlines⟩, hip, hhp, hle, hinside, hsmall, htop, hobject, hslot₀,
    hslot₁⟩ := hm
  obtain ⟨a, b, hab⟩ := List.length_eq_two.1 htwo
  rw [hab] at htable
  have htable : b.dispatchTable (Tables.after [] 0 [a]) (classRoutines [a]) = [.routine 0, .routine 2] :=
    htable b List.mem_cons_self
  obtain ⟨⟨l, -, hl, hlen⟩, hserves, hcode⟩ :=
    dispatch_tables_agree hp (of_decide_eq_true hbytes) hn (show p.resolve.classes = [a] ++ b :: [] from hab)
  rw [htable] at hlen hserves hcode
  rw [hab] at hserves
  have hstores : (Machine.run (p.resolve.code 100).instrs 50 (.fresh 100)).1.StoresTable (p.resolve.code 100)
      [.routine 0, .routine 2] 2 := by
    refine ⟨⟨5, ⟨hhp, hle, hinside, hsmall⟩, by decide⟩, fun j l hj => ?_⟩
    obtain rfl | rfl : j = 0 ∨ j = 1 := by
      have hlt := (List.getElem?_eq_some_iff.1 hj).1
      rw [List.length_cons, List.length_singleton] at hlt
      omega
    · exact Option.some.inj hj ▸ hslot₀
    · exact Option.some.inj hj ▸ hslot₁
  have hbefore : (Machine.run (p.resolve.code 100).instrs 50 (.fresh 100)).1.Before (p.resolve.code 100)
      (.op .lw :: Line.loadAt 1 ++ (p.resolve.code 100).drop 54) :=
    ⟨(p.resolve.code 100).take 50, by rw [← hlines, List.take_append_drop], hip⟩
  have htarget := (hcode 100 (by decide)).2.2.2 _ 2 4 1 _ _ hstores rfl htop hobject hbefore
  exact ⟨p, a, b, _, hp, hn, hab, hserves, ⟨l, hl, hlen.symm⟩, Prod.ext rfl hrunning, _, Prod.ext rfl hstill,
    (htarget.of_running (Prod.ext rfl hstill)).2.2⟩

end FoolLang
