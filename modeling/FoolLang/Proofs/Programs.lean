import FoolLang.Proofs.Generate
import FoolLang.Proofs.Routines
import FoolLang.Proofs.Settle
/-!
# Programs — a program without errors is evaluated by its code

The plan of a program is what is known once its classes are declared; without errors it is sound
(`Program.Settles.sound`), for the code of every method is part of the code.  The code of the classes puts their
dispatch tables on the heap and the addresses of the tables in the global frame; from there on the code does what the
evaluator does (`Program.Settles.outcome_evaluate`).
-/
namespace FoolLang

/-! ## Dispatch tables on the heap -/

namespace Tables

/-- Where dispatch tables lie, each of them after the earlier ones. -/
def bases : Tables → List (Ident × Nat)
  | [] => []
  | (c, _) :: slots => (c, cells slots) :: bases slots

/-- The labels in dispatch tables, the earliest table first. -/
def labels : Tables → List Label
  | [] => []
  | (_, table) :: slots => labels slots ++ table

theorem length_labels : ∀ slots : Tables, slots.labels.length = slots.cells
  | [] => rfl
  | (_, table) :: slots => by
    rw [labels, List.length_append, length_labels slots, cells, Nat.add_comm]

theorem getElem?_labels {c : Ident} {table : List Label} {base j : Nat} {l : Label} : ∀ {slots : Tables},
    slots.lookup c = some table → slots.bases.lookup c = some base → table[j]? = some l →
    slots.labels[base + j]? = some l
  | [], h, _, _ => nomatch h
  | (d, table') :: slots, h, hb, hj => by
    rw [bases] at hb
    by_cases hcd : c = d
    · subst hcd
      rw [List.lookup_cons_self] at h hb
      obtain rfl := Option.some.inj h
      obtain rfl := Option.some.inj hb
      rw [labels, ← length_labels, List.getElem?_append_right (Nat.le_add_right _ _), Nat.add_sub_cancel_left, hj]
    · rw [lookup_cons_of_ne hcd] at h hb
      have ih := getElem?_labels h hb hj
      rw [labels, List.getElem?_append_left (List.getElem?_eq_some_iff.1 ih).1, ih]

/-- The code of classes pushes the labels in their dispatch tables. -/
theorem mem_labels_after {l : Label} (cs : List Class) : ∀ {slots : Tables} {f : Nat}, l ∈ (slots.after f cs).labels →
    l ∈ slots.labels ∨ .pushLabel l ∈ classCode slots f cs := by
  induction cs with
  | nil => exact .inl
  | cons c cs ih =>
    intro slots f hl
    rw [classCode, List.mem_append]
    rcases ih hl with hmem | hmem
    · rcases List.mem_append.1 hmem with hslots | htable
      · exact .inl hslots
      · refine .inr (.inl (List.mem_cons_of_mem _ (List.mem_flatMap.2 ⟨l, htable, List.mem_cons_self⟩)))
    · exact .inr (.inr hmem)

end Tables

/-! ## The plan of a program -/

namespace Program

def slots (p : Program) : Tables := Tables.after [] 0 (resolveClasses p.initialEnv p.classes)

def plan (p : Program) : Plan where
  classes := p.latestFirst
  types := p.classTable
  tables := p.classEnv.tables
  globals := p.classEnv.globals
  slots := p.slots
  bases := p.slots.bases
  nodes := p.resolve.nodes

theorem classTable_eq (p : Program) : p.classTable = ⟨p.classEnv.hierarchy, p.classEnv.layouts⟩ := by
  obtain ⟨hl, hh⟩ := Env.afterAll_known p.decs p.classEnv
  rw [classTable, mainEnv, hl, hh]

end Program

theorem nodup_addNames (xs : List Ident) : ∀ {names : List Ident}, names.Nodup → (xs.foldl addName names).Nodup := by
  induction xs with
  | nil => exact fun h => h
  | cons x xs ih => exact fun h => ih (nodup_addName h x)

theorem nodup_fieldNames : ∀ (cs : List Class) (c : Ident), (fieldNames cs c).Nodup
  | [], _ => List.nodup_nil
  | k :: cs, c => by
    rw [fieldNames]
    split
    · refine nodup_addNames _ ?_
      cases k.super with
      | none => exact List.nodup_nil
      | some s => exact nodup_fieldNames cs s
    · exact nodup_fieldNames cs c

section

variable {H : Host} {p : Program}

/-- What a program knows once its classes are declared. -/
abbrev Program.Settles (H : Host) (p : Program) : Prop :=
  Settled p.classTable.hierarchy (p.plan.Implements H) p.latestFirst p.classEnv p.slots

theorem Program.Settles.lookup_tables (hs : p.Settles H) {c : Ident} {T : Scope}
    (hT : p.plan.tables.lookup c = some T) :
    ∃ l table, p.plan.types.layouts.lookup c = some l ∧ p.slots.lookup c = some table ∧
      ClassSettled p.classTable.hierarchy (p.plan.Implements H) p.latestFirst c T l table := by
  obtain ⟨e, he⟩ := Option.isSome_iff_exists.1 (hs.neat.tables c (Option.isSome_iff_exists.2 ⟨T, hT⟩))
  obtain ⟨T', l, table, -, hT', hl, ht, hc⟩ := hs.cls c e he
  obtain rfl : T' = T := Option.some.inj (hT'.symm.trans hT)
  refine ⟨l, table, ?_, ht, hc⟩
  show p.classTable.layouts.lookup c = some l
  rw [p.classTable_eq, hl]

theorem Program.Settles.extends_below (hs : p.Settles H) {c d : Ident} {l l' : Layout}
    (hl : p.plan.types.layouts.lookup c = some l) (hl' : p.plan.types.layouts.lookup d = some l')
    (hb : p.plan.types.hierarchy.Below d c) :
    Extends p.classTable.hierarchy (fieldNames p.latestFirst c) (methodNames p.latestFirst c) l
      (fieldNames p.latestFirst d) (methodNames p.latestFirst d) l' := by
  have hl₂ : p.classTable.layouts.lookup c = some l := hl
  have hl₂' : p.classTable.layouts.lookup d = some l' := hl'
  rw [p.classTable_eq] at hl₂ hl₂'
  obtain ⟨l₃, hl₃, hext⟩ := Settled.extends_below hs (fun c s h => by rwa [p.classTable_eq] at h) hl₂' hb
  obtain rfl : l₃ = l := Option.some.inj (hl₃.symm.trans hl₂)
  exact hext

/-- **What is settled about the classes of a program is sound.** -/
theorem Program.Settles.sound (hs : p.Settles H) (hf : ∀ n ∈ p.resolve.nodes, n.OffsetsFit)
    (hc : ∀ n ∈ p.resolve.nodes, n.Complete) : p.plan.Sound H where
  fits := hf
  complete := hc
  known c T hT := by
    obtain ⟨l, table, hl, -, hc⟩ := hs.lookup_tables hT
    exact ⟨hc.listed, l, hl, hc.tidy.ofFields.length.symm⟩
  distinct c := nodup_fieldNames _ c
  field c T x e d hT hx hm hd hb := by
    obtain ⟨T', hT'⟩ := Option.isSome_iff_exists.1 hd
    obtain ⟨l, table, hl, -, hc⟩ := hs.lookup_tables hT
    obtain ⟨l', table', hl', -, hc'⟩ := hs.lookup_tables hT'
    have hext := hs.extends_below hl hl' hb
    obtain ⟨-, i, t, hi, ht, rfl⟩ := hc.tidy.of_field hx hm
    obtain ⟨t', ht', href⟩ := hext.field i t ht
    have hi' := Host.getElem?_of_isPrefix hext.fieldNames hi
    refine ⟨rfl, List.mem_of_getElem? hi, i, l', t', hi', ?_, hl', ht', href.refines⟩
    exact Host.ofInt_wrapOffset _
  method c T m e d hT hx hm hd hb := by
    obtain ⟨T', hT'⟩ := Option.isSome_iff_exists.1 hd
    obtain ⟨l, table, hl, -, hc⟩ := hs.lookup_tables hT
    obtain ⟨l', table', hl', htable', hc'⟩ := hs.lookup_tables hT'
    have hext := hs.extends_below hl hl' hb
    obtain ⟨-, j, sig, hj, hsig, rfl⟩ := hc.tidy.of_method hx hm
    obtain ⟨sig', hsig', href⟩ := hext.method j sig hsig
    obtain ⟨c', m', f, hfind, hslot, hown, hbelow, himp⟩ :=
      hc'.serves.slot j m (Host.getElem?_of_isPrefix hext.methodNames hj)
    obtain rfl : m'.signature = sig' := Option.some.inj (hown.symm.trans hsig')
    refine ⟨rfl, List.mem_of_getElem? hj, j, table', sig, c', m', f, ?_, htable', hslot, rfl, hfind, hbelow,
      href.refines, himp⟩
    exact (Host.ofInt_wrapOffset _).trans Int32.ofInt_eq_ofNat

end

/-! ## The code of methods -/

section

variable {H : Host} {P : Plan}

/-- The methods of a class without errors have the routines in its code. -/
theorem implemented_methods {inner env : Env} {c : Ident} {T G : Scope} (hK : P.Knows inner)
    (hscopes : inner.scopes = [T, G]) (htop : inner.level = 1) (hT : P.tables.lookup c = some T) (hG : G.OfClasses)
    (hl : env.level = 0) (ms : List Method) : ∀ {s : Members} {k f : Nat} {after : Code}, methodsErrors env s ms = [] →
    bodiesErrors inner 1 s ms = [] →
    (∀ m ∈ resolveMethods inner 1 s ms, m.typeErrors P.types = [] ∧ ∀ n ∈ m.nodes, n ∈ P.nodes) →
    methodRoutineCode Code.mark k f (resolveMethods inner 1 s ms) ++ after <:+ H.code →
    (∀ x ∈ methodLevels f (resolveMethods inner 1 s ms), H.levels x.1 = x.2) →
    Implemented (P.Implements H c) inner f ms := by
  induction ms with
  | nil => exact fun _ _ _ _ _ => trivial
  | cons m ms ih =>
    intro s k f after hn hb ht hcode hlevels
    obtain ⟨hm, hms⟩ := List.append_eq_nil_iff.1 hn
    obtain ⟨-, hm⟩ := List.append_eq_nil_iff.1 hm
    obtain ⟨off, hoff⟩ := Members.methodSlot_of_errors hm
    obtain ⟨hbody, hbodies⟩ := List.append_eq_nil_iff.1 hb
    rw [hoff] at hbody
    rw [resolveMethods, hoff] at ht hcode hlevels
    dsimp only at ht hcode hlevels
    rw [methodLevels, List.forall_mem_append] at hlevels
    obtain ⟨hlevel, hinner⟩ := List.forall_mem_cons.1 hlevels.1
    obtain ⟨⟨htype, hnodes⟩, hts⟩ := List.forall_mem_cons.1 ht
    rw [methodRoutineCode, List.append_assoc] at hcode
    rw [hl] at hms
    obtain ⟨hlocals, hreturn⟩ := List.append_eq_nil_iff.1 htype
    have hc : Compiled H P inner m.routine m.ret f (some 2) :=
      ⟨hK, hbody, ⟨hlocals, .method, m.id, m.line, hreturn⟩, hnodes, ⟨k, _, hcode⟩, hlevel, hinner⟩
    exact ⟨⟨inner, T, G, hc, hscopes, htop, hT, hG⟩,
      ih hms hbodies hts (Host.suffix_of_append hcode) hlevels.2⟩

theorem Env.Neat.globals_inClass {env : Env} (h : env.Neat) (c : Class) :
    (env.inClass c).globals = (env.afterClass c).globals := by
  have hs : (env.inClass c).scopes = (env.members c).table :: (env.afterClass c).scopes := rfl
  rw [globals, hs, h.scopes_afterClass c, h.globals_afterClass c]
  rfl

/-- **The methods of classes without errors have the routines in their code.** -/
theorem allImplemented (cs : List Class) : ∀ {env : Env} {k f : Nat} {after : Code}, env.Neat →
    classesNameErrors env cs = [] → (cs.foldl Env.afterClass env).tables = P.tables →
    (cs.foldl Env.afterClass env).globals = P.globals →
    (∀ c ∈ resolveClasses env cs, c.typeErrors P.types = [] ∧ ∀ n ∈ c.nodes, n ∈ P.nodes) →
    classRoutineCode Code.mark k f (resolveClasses env cs) ++ after <:+ H.code →
    (∀ x ∈ classLevels f (resolveClasses env cs), H.levels x.1 = x.2) →
    AllImplemented (P.Implements H) env f cs := by
  induction cs with
  | nil => exact fun _ _ _ _ _ _ _ => trivial
  | cons c cs ih =>
    intro env k f after hneat hn htables hglobals ht hcode hlevels
    obtain ⟨hc, hcs⟩ := List.append_eq_nil_iff.1 hn
    obtain ⟨-, hr, -, hms, hbodies⟩ := Class.nameErrors_eq_nil hc
    obtain ⟨⟨htype, hnodes⟩, hts⟩ := List.forall_mem_cons.1 ht
    rw [resolveClasses, classRoutineCode, List.append_assoc] at hcode
    rw [resolveClasses, classLevels, List.forall_mem_append] at hlevels
    have hneat' := hneat.afterClass hr
    obtain ⟨-, hw⟩ := hneat'.afterClasses cs hcs
    obtain ⟨G, hG, hcls⟩ := hneat'.top
    have hK : P.Knows (env.inClass c) := by
      intro d T hT
      have hT' : (env.afterClass c).tables.lookup d = some T := hT
      obtain ⟨e, he⟩ := Option.isSome_iff_exists.1 (hneat'.tables d (Option.isSome_iff_exists.2 ⟨T, hT'⟩))
      refine ⟨?_, e, ?_, ?_⟩
      · rw [← htables]
        exact hw.tables d T hT'
      · rw [hneat.globals_inClass c, he]
      · rw [← hglobals]
        exact hw.globals d e he
    have hT : P.tables.lookup c.id = some (env.members c).table := by
      rw [← htables]
      exact hw.tables _ _ List.lookup_cons_self
    have hscopes : (env.inClass c).scopes = [(env.members c).table, G] := congrArg (_ :: ·) hG
    have hlevel : (env.inClass c).level = 1 := congrArg Nat.succ hneat.level
    have hmethods : (c.resolve env).methods = resolveMethods (env.inClass c) 1 (env.withFields c) c.methods := by
      show resolveMethods (env.inClass c) (env.level + 1) _ _ = _
      rw [hneat.level]
    rw [hneat.level] at hbodies
    obtain ⟨htype, -⟩ := List.append_eq_nil_iff.1 htype
    refine ⟨implemented_methods hK hscopes hlevel hT hcls hneat.level c.methods hms hbodies (fun m hm => ?_)
      (hmethods ▸ hcode) (hmethods ▸ hlevels.1), ih hneat' hcs htables hglobals hts (Host.suffix_of_append hcode)
      hlevels.2⟩
    rw [← hmethods] at hm
    exact ⟨List.flatMap_eq_nil_iff.1 htype m hm, fun n hn => hnodes n (List.mem_flatMap.2 ⟨m, hm, hn⟩)⟩

end

namespace Program

variable {H : Host} {p : Program}

theorem resolve_classes (p : Program) : p.resolve.classes = resolveClasses p.initialEnv p.classes := by cases p <;> rfl

theorem routines_suffix (memory : Nat) (p : Program) :
    classRoutineCode memory 0 0 (resolveClasses p.initialEnv p.classes) ++
      localRoutineCode memory (classLabels (resolveClasses p.initialEnv p.classes))
        (classRoutines (resolveClasses p.initialEnv p.classes)) (resolveLocals p.classEnv p.decs)
      <:+ p.resolve.code memory := by
  cases p with
  | letIn cs ds body =>
    rw [resolve, code, List.append_assoc]
    exact List.suffix_append _ _
  | expr body => exact List.nil_suffix

theorem class_levels (p : Program) :
    ∀ x ∈ classLevels 0 (resolveClasses p.initialEnv p.classes), x ∈ p.resolve.levels := by
  cases p with
  | letIn cs ds body => exact fun x hx => List.mem_append_left _ hx
  | expr body => exact nofun

/-- **What a program without errors knows of its classes is settled**, whatever the routines of their methods are. -/
theorem settled {source : List Char} (hp : parse source = .ok p) (hb : Text.byteLength source ≤ Text.maxInt32)
    (hd : p.diagnostics = []) {I : Ident → Method → Nat → Prop} (hI : AllImplemented I p.initialEnv 0 p.classes) :
    Settled p.classTable.hierarchy I p.latestFirst p.classEnv p.slots := by
  obtain ⟨-, hfew, hplain⟩ := parse_sound hp
  obtain ⟨hn, -⟩ := List.append_eq_nil_iff.1 (nameErrors_eq_nil hd)
  obtain ⟨hn, -⟩ := List.append_eq_nil_iff.1 hn
  obtain ⟨ht, -⟩ := List.append_eq_nil_iff.1 (typeErrors_eq_nil hd)
  rw [resolve_classes] at ht
  have ht := List.flatMap_eq_nil_iff.1 ht
  have hstart := settled_initial p.classTable.hierarchy I (p.classes.map Class.id)
  have hs := hstart.afterClasses (k := p.classTable) rfl p.classes hn
    (fun c hc => (List.append_eq_nil_iff.1 (ht c hc)).2) hplain (by rw [declaredIn]; omega)
    (fun d s hds => by rw [p.classTable_eq]; exact hds) hI
  rwa [List.append_nil] at hs

theorem settles {source : List Char} (hp : parse source = .ok p) (hb : Text.byteLength source ≤ Text.maxInt32)
    (hd : p.diagnostics = []) (hcode : H.code = p.resolve.code Code.mark) (hlevels : H.levels = p.resolve.levelOf) :
    p.Settles H := by
  obtain ⟨hn, -⟩ := List.append_eq_nil_iff.1 (nameErrors_eq_nil hd)
  obtain ⟨hn, -⟩ := List.append_eq_nil_iff.1 hn
  obtain ⟨ht, -⟩ := List.append_eq_nil_iff.1 (typeErrors_eq_nil hd)
  rw [resolve_classes] at ht
  have ht := List.flatMap_eq_nil_iff.1 ht
  have hnodes : ∀ c ∈ resolveClasses p.initialEnv p.classes, ∀ n ∈ c.nodes, n ∈ p.plan.nodes := fun c hc n hn => by
    rw [← resolve_classes] at hc
    exact List.mem_append_left _ (List.mem_append_left _ (List.mem_flatMap.2 ⟨c, hc, hn⟩))
  exact settled hp hb hd <| allImplemented p.classes (Env.neat_initial _) hn rfl rfl
    (fun c hc => ⟨ht c hc, hnodes c hc⟩) (by rw [hcode]; exact p.routines_suffix Code.mark) fun x hx => by
      rw [hlevels]
      exact p.resolve.levelOf_eq x (p.class_levels x hx)

end Program

/-! ## The start of a run -/

/-- The heap once these dispatch tables are built. -/
def Tables.heap (H : Host) (slots : Tables) : List Cell := slots.labels.map fun l => Cell.ofNat (H.code.address l)

/-- A plan with the classes that `env` knows. -/
def Plan.upTo (P : Plan) (env : Env) (slots : Tables) : Plan := { P with globals := env.globals, bases := slots.bases }

namespace Host

variable {H : Host} {P : Plan} {p : Program}

theorem at_start (H : Host) : H.At H.code [] [] 0 (.fromEnd 0) (.const 0) (.const 0) [] := by
  refine ⟨List.suffix_refl _, 0, ?_⟩
  rw [place, Nat.sub_self]
  exact .start

/-- **The code of the classes builds their dispatch tables** and leaves their addresses in the global frame. -/
theorem At.declareClasses (cs : List Class) : ∀ {env : Env} {slots : Tables} {f : Nat} {s : List Cell} {rest : Code}
    {ra tm : Cell} {out : List Int32}, env.Neat → classesNameErrors env cs = [] →
    NextCell env s (.fromEnd 0) → Ground (P.upTo env slots) s (slots.heap H) →
    H.At (classCode slots f (resolveClasses env cs) ++ rest) s (slots.heap H) (slots.heap H).length
      (.fromEnd 0) ra tm out →
    ∃ cells, cells.length = cs.length ∧ NextCell (cs.foldl Env.afterClass env) (cells ++ s) (.fromEnd 0) ∧
      Ground (P.upTo (cs.foldl Env.afterClass env) (slots.after f (resolveClasses env cs))) (cells ++ s)
        ((slots.after f (resolveClasses env cs)).heap H) ∧
      H.At rest (cells ++ s) ((slots.after f (resolveClasses env cs)).heap H)
        ((slots.after f (resolveClasses env cs)).heap H).length (.fromEnd 0) ra tm out := by
  induction cs with
  | nil => exact fun _ _ hnext hg hat => ⟨[], rfl, hnext, hg, hat⟩
  | cons c cs ih =>
    intro env slots f s rest ra tm out hneat hn hnext hg hat
    obtain ⟨hc, hcs⟩ := List.append_eq_nil_iff.1 hn
    obtain ⟨-, hr, -⟩ := Class.nameErrors_eq_nil hc
    rw [resolveClasses, classCode, List.append_assoc] at hat
    have htable := hat.tableCode
    have hheap : slots.heap H ++ ((c.resolve env).dispatchTable slots f).map (fun l => Cell.ofNat (H.code.address l)) =
        Tables.heap H ((c.id, (c.resolve env).dispatchTable slots f) :: slots) := by
      rw [Tables.heap, Tables.heap, Tables.labels, List.map_append]
    rw [hheap] at htable
    have hlen : (slots.heap H).length = slots.cells := by rw [Tables.heap, List.length_map, Tables.length_labels]
    have hground : Ground (P.upTo (env.afterClass c) ((c.id, (c.resolve env).dispatchTable slots f) :: slots))
        (Cell.ofNat (slots.heap H).length :: s)
        (Tables.heap H ((c.id, (c.resolve env).dispatchTable slots f) :: slots)) := by
      intro d e he
      have he' : (env.afterClass c).globals.lookup d = some e := he
      rw [hneat.globals_afterClass c] at he'
      by_cases hdc : d = c.id
      · subst hdc
        rw [List.lookup_cons_self] at he'
        cases he'
        refine ⟨slots.cells, List.lookup_cons_self, ?_⟩
        rw [← hlen]
        exact hnext.sees _
      · rw [lookup_cons_of_ne hdc] at he'
        obtain ⟨base, hb, hv⟩ := hg d e he'
        refine ⟨base, (lookup_cons_of_ne hdc _ _).trans hb, hv.later (List.suffix_cons _ _) ?_⟩
        rw [← hheap]
        exact List.prefix_append _ _
    obtain ⟨cells, hcells, hrest⟩ := ih (hneat.afterClass hr) hcs
      (hnext.declare c.id (.cls (env.members c).layout) (Cell.ofNat (slots.heap H).length)) hground htable
    refine ⟨cells ++ [Cell.ofNat (slots.heap H).length], ?_, ?_⟩
    · rw [List.length_append, hcells]
      rfl
    · rw [List.append_assoc]
      exact hrest

end Host

namespace Program

variable {H : Host} {p : Program}

/-- The addresses in the dispatch tables of a program are pushed by its code. -/
theorem address_le_of_slots (hcode : H.code = p.resolve.code Code.mark) {l : Label} (hl : l ∈ p.slots.labels) :
    H.code.address l ≤ Text.maxInt32 := by
  refine H.addressable l ?_
  cases p with
  | expr body => cases hl
  | letIn cs ds body =>
    rcases Tables.mem_labels_after _ hl with hnil | hmem
    · cases hnil
    · rw [hcode, resolve, code]
      simp only [List.mem_append, List.mem_cons]
      exact .inl (.inl (.inl (.inl (.inl (.inr hmem)))))

/-- The global declarations of a program are to be evaluated once the classes are declared. -/
theorem Settles.ready (hs : p.Settles H) (hcode : H.code = p.resolve.code Code.mark) {s : List Cell} {fp : Cell}
    (hg : Host.Ground p.plan s (p.slots.heap H)) :
    H.Ready p.plan p.classEnv ⟨none, []⟩ p.startWorld s (p.slots.heap H) fp := by
  obtain ⟨G, hG, hcls⟩ := hs.neat.top
  refine ⟨fun c T hT => ?_, ?_, ⟨?_, (fun _ _ h => nomatch h), (fun _ _ h => nomatch h), ?_⟩, hg⟩
  · obtain ⟨e, he⟩ := Option.isSome_iff_exists.1 (hs.neat.tables c (Option.isSome_iff_exists.2 ⟨T, hT⟩))
    exact ⟨hT, e, he, he⟩
  · rw [hG, hs.neat.level]
    exact .global fp hcls
  · rw [Tables.heap, List.length_map, Tables.length_labels, hs.cells]
    rfl
  · intro c table base ht hb j l hj
    have hl : p.slots.labels[base + j]? = some l := Tables.getElem?_labels ht hb hj
    refine ⟨?_, address_le_of_slots hcode (List.mem_of_getElem? hl)⟩
    rw [Tables.heap, List.getElem?_map, hl]
    rfl

/-- The cells of the global frame: a zero at its end, and one cell for each declaration, classes included. -/
def Frame : Program → List Int32 → Prop
  | .letIn cs ds _, cells => ∃ declared, declared.length = cs.length + ds.length ∧ cells = declared ++ [0]
  | .expr _, cells => cells = []

/-- What is left when a program has been evaluated: its value above the global frame. -/
def Leaves (H : Host) (p : Program) (v : Value) (w : World) : Prop :=
  ∃ (cells : List Cell) (hs : _) (fp ra tm : _) (after : _), (∀ M, p.Frame (cells.map (·.word M))) ∧
    H.Represents p.plan w hs ∧ H.At (.op .halt :: after) (v.cell :: cells) hs hs.length fp ra tm w.printed

/-- Once the code of the classes has run, the machine holds what is visible to the global declarations. -/
theorem at_decs {cs : List Class} {ds : List Dec} {body : Expr}
    (hn : classesNameErrors (letIn cs ds body).initialEnv cs = [])
    (hcode : H.code = (letIn cs ds body).resolve.code Code.mark)
    (hlevels : H.levels = (letIn cs ds body).resolve.levelOf) : ∃ cells k f after, cells.length = cs.length ∧
      Host.NextCell (letIn cs ds body).classEnv (cells ++ [.const 0]) (.fromEnd 0) ∧
      Host.Ground (letIn cs ds body).plan (cells ++ [.const 0]) ((letIn cs ds body).slots.heap H) ∧
      H.At (localCode Code.mark k f (resolveLocals (letIn cs ds body).classEnv ds) ++
        ((body.resolve (letIn cs ds body).mainEnv).code Code.mark
          (k + localLabels (resolveLocals (letIn cs ds body).classEnv ds)) ++ .op .halt :: after)) (cells ++ [.const 0])
        ((letIn cs ds body).slots.heap H) ((letIn cs ds body).slots.heap H).length (.fromEnd 0) (.const 0) (.const 0)
        [] ∧
      H.Stands (letIn cs ds body).classEnv ⟨none, []⟩ ((body.resolve (letIn cs ds body).mainEnv).code Code.mark
          (k + localLabels (resolveLocals (letIn cs ds body).classEnv ds)) ++ .op .halt :: after) ∧
      localRoutineCode Code.mark k f (resolveLocals (letIn cs ds body).classEnv ds) <:+ H.code ∧
      ∀ x ∈ localLevels none f (resolveLocals (letIn cs ds body).classEnv ds), H.levels x.1 = x.2 := by
  have hstart := H.at_start
  have hroutines := (letIn cs ds body).routines_suffix Code.mark
  have hwhole : H.Stands (letIn cs ds body).classEnv ⟨none, []⟩ H.code :=
    ⟨by simp [hcode, resolve, code], Host.levelAt_of_main (List.nil_append _) (List.forall_mem_nil _)⟩
  rw [hcode, resolve, code] at hstart hwhole
  rw [← hcode] at hroutines
  simp only [List.append_assoc, List.cons_append, List.nil_append] at hstart hwhole
  have hnext : Host.NextCell (letIn cs ds body).initialEnv [Cell.ofInt 0] (.fromEnd 0) := by
    show Cell.fromEnd 2 = .fromEnd 0 + .ofInt (-2)
    rw [Cell.fromEnd_add]
    rfl
  have hg : Host.Ground ((letIn cs ds body).plan.upTo (letIn cs ds body).initialEnv []) [Cell.ofInt 0] [] :=
    fun c e he => by
      have he' : List.lookup c ([] : Scope) = some e := he
      cases he'
  obtain ⟨cells, hcells, hnext, hground, hat⟩ :=
    Host.At.declareClasses cs (Env.neat_initial _) hn hnext hg (hstart.push (by decide))
  have hdecs := hwhole.after (c := .push 0 :: classCode [] 0 _) hstart.suffix
    (List.forall_mem_cons.2 ⟨rfl, (inner_classCode _ (.nil 0)).routine?_eq_none⟩)
    (by simp only [Code.size_append, Code.size_op]; omega)
  have hbody := hdecs.after hat.suffix (inner_localCode Code.mark _ _ _).routine?_eq_none
    (by simp only [Code.size_append, Code.size_op]; omega)
  refine ⟨cells, _, _, _, hcells, hnext, hground, hat, hbody, Host.suffix_of_append hroutines, fun x hx => ?_⟩
  rw [hlevels]
  exact levelOf_eq _ x (List.mem_append_right _ hx)

/-- **The code of a program does what evaluating the program does.** -/
theorem Settles.outcome_evaluate (hs : p.Settles H) (hf : ∀ n ∈ p.resolve.nodes, n.OffsetsFit)
    (hd : p.diagnostics = []) {ty : Ty} (hty : p.mainType = .ok ty)
    (hcode : H.code = p.resolve.code Code.mark) (hlevels : H.levels = p.resolve.levelOf) {depth : Nat}
    (hdepth : H.memory ≤ depth) :
    H.Outcome p.plan (p.evaluate depth) fun v w => v.Has p.classTable.hierarchy w ty ∧ p.Leaves H v w := by
  have hP := hs.sound hf (resolve_complete (nameErrors_eq_nil hd)).1
  have hcall := Host.invokes_callWithin hP depth
  obtain ⟨hnames, hbody⟩ := List.append_eq_nil_iff.1 (nameErrors_eq_nil hd)
  obtain ⟨hnames, hdecs⟩ := List.append_eq_nil_iff.1 hnames
  obtain ⟨-, htypes⟩ := List.append_eq_nil_iff.1 (typeErrors_eq_nil hd)
  have hmore : ∀ cells : List Cell, H.memory ≤ depth + cells.length := fun cells => by omega
  cases p with
  | expr body =>
    have hstart := H.at_start
    rw [hcode] at hstart
    have hg : Host.Ground (Program.expr body).plan [] [] := fun c e he => by
      have he' : List.lookup c ([] : Scope) = some e := he
      cases he'
    have h0 : H.Stands (Program.expr body).classEnv ⟨none, []⟩ [.op .halt] :=
      ⟨by simp, Host.levelAt_of_main hcode.symm (Expr.inner_code Code.mark _ _).routine?_eq_none⟩
    exact (Host.simulates hP hcall body (hs.ready hcode hg) hty (fun n hn => hn) (hmore []) h0 hstart).mono
      fun v w ⟨hv, hs', ra, tm, _, _, hr, hat⟩ => ⟨hv, [], hs', _, ra, tm, [], fun _ => rfl, hr, hat⟩
  | letIn cs ds body =>
    obtain ⟨cells, k, f, after, hcells, hnext, hground, hat, h0, hroutines, hinner⟩ := at_decs hnames hcode hlevels
    rw [← List.append_nil (localRoutineCode _ _ _ _)] at hroutines
    have hnodes : ∀ n ∈ localNodes (resolveLocals (letIn cs ds body).classEnv ds), n ∈ (letIn cs ds body).plan.nodes :=
      fun n hn => List.mem_append_left _ (List.mem_append_right _ hn)
    refine (Host.simulatesDecs hP hcall ds (hs.ready hcode hground) hnext hdecs htypes hnodes hroutines
      hinner (hmore _) h0 hat).bind fun ctx w hdeclares => ?_
    obtain ⟨cells', hs', ra, tm, hcells', _, _, hr, h0', hat'⟩ := hdeclares
    have hend := h0'.after hat'.suffix (Expr.inner_code Code.mark _ _).routine?_eq_none (by simp)
    have hbodies : ∀ n ∈ (body.resolve (letIn cs ds body).mainEnv).nodes, n ∈ (letIn cs ds body).plan.nodes :=
      fun n hn => List.mem_append_right _ hn
    refine (Host.simulates hP hcall body hr hty hbodies (hmore _) hend hat').mono fun v w harrives => ?_
    obtain ⟨hv, hs'', ra', tm', _, _, hr', hat''⟩ := harrives
    refine ⟨hv, cells' ++ (cells ++ [.const 0]), hs'', _, ra', tm', _,
      fun M => ⟨(cells' ++ cells).map (·.word M), ?_, ?_⟩, hr', hat''⟩
    · rw [List.length_map, List.length_append, hcells', hcells, Nat.add_comm]
    · rw [← List.append_assoc, List.map_append]
      rfl

end Program
end FoolLang
