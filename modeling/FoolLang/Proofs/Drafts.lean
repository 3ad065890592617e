import FoolLang.Parse
import FoolLang.Proofs.Nodes
/-!
# Drafts — what a parsed program starts from

No node of a program that was just parsed has an entry, and the classes of a program have fewer members than its
source has bytes, none of them a field with the type of a method (`parse_sound`).  All of it is kept while the program
is read: a token adds at most one member, and the types it names are those of values.
-/
namespace FoolLang

/-- How many members a class declares. -/
def Class.declared (c : Class) : Nat := c.fields.length + c.methods.length

/-- How many members classes declare. -/
def declaredIn : List Class → Nat
  | [] => 0
  | c :: cs => c.declared + declaredIn cs

theorem declaredIn_append : ∀ as bs : List Class, declaredIn (as ++ bs) = declaredIn as + declaredIn bs
  | [], bs => by simp [declaredIn]
  | a :: as, bs => by rw [List.cons_append, declaredIn, declaredIn_append as bs, declaredIn, Nat.add_assoc]

@[simp] theorem declaredIn_reverse : ∀ cs : List Class, declaredIn cs.reverse = declaredIn cs
  | [] => rfl
  | c :: cs => by
    rw [List.reverse_cons, declaredIn_append, declaredIn_reverse cs, declaredIn, declaredIn, declaredIn]
    omega

theorem mem_argNodes {n : Expr} {es : List Expr} : n ∈ argNodes es ↔ ∃ e ∈ es, n ∈ e.nodes := by
  induction es with
  | nil => simp [argNodes]
  | cons e es ih => simp [argNodes, ih]

theorem mem_localNodes {n : Expr} {ds : List Dec} : n ∈ localNodes ds ↔ ∃ d ∈ ds, n ∈ d.nodes := by
  induction ds with
  | nil => simp [localNodes]
  | cons d ds ih => simp [localNodes, ih]

@[simp] theorem mem_argNodes_reverse {n : Expr} {es : List Expr} : n ∈ argNodes es.reverse ↔ n ∈ argNodes es := by
  simp [mem_argNodes]

@[simp] theorem mem_localNodes_reverse {n : Expr} {ds : List Dec} :
    n ∈ localNodes ds.reverse ↔ n ∈ localNodes ds := by
  simp [mem_localNodes]

def Frame.nodes : Frame → List Expr
  | .binary _ _ left => left.nodes
  | .yes _ t => t.nodes
  | .no _ t y => t.nodes ++ y.nodes
  | .args _ _ done => argNodes done
  | _ => []

def Focus.nodes : Focus → List Expr
  | .value e => e.nodes
  | .yesOpen _ t => t.nodes
  | .elseWord _ t y | .noOpen _ t y => t.nodes ++ y.nodes
  | _ => []

def ClassHead.nodes (h : ClassHead) : List Expr := h.earlier.flatMap Class.nodes

def ClassDraft.nodes (c : ClassDraft) : List Expr := c.head.nodes ++ c.methods.flatMap Method.nodes

mutual

def Block.nodes : Block → List Expr
  | .main cs ds => cs.flatMap Class.nodes ++ localNodes ds
  | .locals _ ds o => localNodes ds ++ o.nodes

def Owner.nodes : Owner → List Expr
  | .block b => b.nodes
  | .cls c => c.nodes

end

def Purpose.nodes : Purpose → List Expr
  | .var _ b => b.nodes
  | .routine _ o => o.nodes
  | .field h _ => h.nodes
  | .param _ _ o => o.nodes

def Site.nodes : Site → List Expr
  | .program => []
  | .main cs ds => cs.flatMap Class.nodes ++ localNodes ds
  | .var _ b => b.nodes
  | .body _ ls o => localNodes ls ++ o.nodes

/-- The expressions in a draft. -/
def Draft.nodes : Draft → List Expr
  | .start => []
  | .expr focus frames site => focus.nodes ++ frames.flatMap Frame.nodes ++ site.nodes
  | .block b => b.nodes
  | .methods c => c.nodes
  | .bind _ p => p.nodes
  | .className earlier _ => earlier.flatMap Class.nodes
  | .classHead h | .superName h | .superDone h | .classOpen h _ => h.nodes
  | .routineOpen _ o => o.nodes
  | .finished p => p.nodes

def ClassDraft.declared (c : ClassDraft) : Nat := declaredIn c.head.earlier + c.fields.length + c.methods.length

mutual

def Block.declared : Block → Nat
  | .main cs _ => declaredIn cs
  | .locals _ _ o => o.declared

def Owner.declared : Owner → Nat
  | .block b => b.declared
  | .cls c => c.declared

end

def Purpose.declared : Purpose → Nat
  | .var _ b => b.declared
  | .routine _ o => o.declared
  | .field h done => declaredIn h.earlier + done.length
  | .param _ _ o => o.declared

def Site.declared : Site → Nat
  | .program => 0
  | .main cs _ => declaredIn cs
  | .var _ b => b.declared
  | .body _ _ o => o.declared

/-- How many members the classes in a draft declare. -/
def Draft.declared : Draft → Nat
  | .start => 0
  | .expr _ _ site => site.declared
  | .block b => b.declared
  | .methods c => c.declared
  | .bind _ p => p.declared
  | .className earlier _ => declaredIn earlier
  | .classHead h | .superName h | .superDone h => declaredIn h.earlier
  | .classOpen h fields => declaredIn h.earlier + fields.length
  | .routineOpen _ o => o.declared
  | .finished p => declaredIn p.classes

/-- None of these nodes has an entry. -/
def Bare (ns : List Expr) : Prop := ∀ n ∈ ns, n.entries = []

theorem bare_nil : Bare [] := fun _ h => nomatch h

@[simp] theorem bare_append {a b : List Expr} : Bare (a ++ b) ↔ Bare a ∧ Bare b := by
  simp [Bare, or_imp, forall_and]

@[simp] theorem bare_cons {n : Expr} {ns : List Expr} : Bare (n :: ns) ↔ n.entries = [] ∧ Bare ns := by
  simp [Bare]

@[simp] theorem bare_argNodes_reverse {es : List Expr} : Bare (argNodes es.reverse) ↔ Bare (argNodes es) := by
  simp [Bare]

@[simp] theorem bare_localNodes_reverse {ds : List Dec} : Bare (localNodes ds.reverse) ↔ Bare (localNodes ds) := by
  simp [Bare]

@[simp] theorem bare_flatMap_reverse {α : Type} {f : α → List Expr} {l : List α} :
    Bare (l.reverse.flatMap f) ↔ Bare (l.flatMap f) := by
  simp [Bare]

/-- A draft whose nodes have no entries and which declares at most `n` members. -/
structure Draft.Sound (n : Nat) (d : Draft) : Prop where
  bare : Bare d.nodes
  few : d.declared ≤ n

namespace Draft

attribute [local simp] Draft.nodes Expr.nodes Expr.entries argNodes Frame.nodes Focus.nodes bare_nil

theorem bare_apply (head : Head) (line : Nat) {args : List Expr} (h : Bare (argNodes args)) :
    Bare (head.apply line args).nodes := by
  cases head <;> simpa [Head.apply, Use.fresh] using h

theorem operand_sound {t : Token} {line : Nat} {frames : List Frame} {site : Site} {d : Draft}
    (h : operand t line frames site = some d) (hf : Bare (frames.flatMap Frame.nodes)) (hs : Bare site.nodes) :
    d.Sound site.declared := by
  unfold operand at h
  split at h
  case h_12 =>
    split at h
    · rename_i l head fs
      cases h
      simp at hf
      have happ := bare_apply head l (show Bare (argNodes []) from bare_nil)
      exact ⟨by simp [happ, hf, hs], Nat.le_refl _⟩
    · cases h
  all_goals cases h
  all_goals exact ⟨by simp [hf, hs], Nat.le_refl _⟩

theorem settle_bare (level : Nat) : ∀ (frames : List Frame) (e : Expr), Bare e.nodes →
    Bare (frames.flatMap Frame.nodes) →
    Bare (settle level e frames).1.nodes ∧ Bare ((settle level e frames).2.flatMap Frame.nodes) := by
  intro frames e he hf
  fun_induction settle level e frames with
  | case1 e l fs ih => exact ih (by simpa using he) (by simpa using hf)
  | case2 e l op left fs hle ih =>
    simp at hf
    exact ih (by simp [he, hf]) hf.2
  | case3 e l op left fs hle => exact ⟨he, hf⟩
  | case4 e fs h1 h2 => exact ⟨he, hf⟩

theorem block_add_nodes {b : Block} {d : Dec} (hb : Bare b.nodes) (hd : Bare d.nodes) : Bare (b.add d).nodes := by
  cases b with
  | main cs ds =>
    simp only [Block.nodes, bare_append] at hb
    simp [Block.add, Block.nodes, localNodes, hb, hd]
  | locals head ds o =>
    simp only [Block.nodes, bare_append] at hb
    simp [Block.add, Block.nodes, localNodes, hb, hd]

theorem block_add_declared (b : Block) (d : Dec) : (b.add d).declared = b.declared := by
  cases b <;> simp [Block.add, Block.declared]

theorem owner_add_sound {o : Owner} {head : RoutineHead} {ls : List Dec} {e : Expr} (ho : Bare o.nodes)
    (hls : Bare (localNodes ls)) (he : Bare e.nodes) : (o.add head ls e).Sound (o.declared + 1) := by
  cases o with
  | block b =>
    refine ⟨block_add_nodes ho (bare_append.2 ⟨hls, he⟩), ?_⟩
    rw [Owner.add, Draft.declared, block_add_declared, Owner.declared]
    exact Nat.le_succ _
  | cls c =>
    simp only [Owner.nodes, ClassDraft.nodes, bare_append] at ho
    refine ⟨by simp [Owner.add, ClassDraft.nodes, Method.nodes, ho, hls, he], ?_⟩
    simp only [Owner.add, Draft.declared, ClassDraft.declared, Owner.declared, List.length_cons]
    omega

theorem close_site (e : Expr) (site : Site) (he : Bare e.nodes) (hs : Bare site.nodes) :
    (site.close e).Sound (site.declared + 1) := by
  cases site with
  | program => exact ⟨by simpa [Site.close, Program.nodes, Program.classes, Program.decs, localNodes, Program.body],
      Nat.zero_le _⟩
  | main cs ds =>
    simp only [Site.nodes, bare_append] at hs
    refine ⟨by simp [Site.close, Program.nodes, Program.classes, Program.decs, Program.body, hs, he], ?_⟩
    simp only [Site.close, Draft.declared, Program.classes, declaredIn_reverse, Site.declared]
    exact Nat.le_succ _
  | var b blk =>
    refine ⟨block_add_nodes hs he, ?_⟩
    rw [Site.close, Draft.declared, block_add_declared, Site.declared]
    exact Nat.le_succ _
  | body head ls o =>
    simp only [Site.nodes, bare_append] at hs
    exact owner_add_sound hs.2 (bare_localNodes_reverse.2 hs.1) he

theorem close_sound {m : Mark} {e : Expr} {frames : List Frame} {site : Site} {d : Draft}
    (h : close m e frames site = some d) (he : Bare e.nodes) (hf : Bare (frames.flatMap Frame.nodes))
    (hs : Bare site.nodes) : d.Sound (site.declared + 1) := by
  unfold close at h
  split at h
  case h_9 => cases h
  case h_8 =>
    cases h
    exact close_site e site he hs
  all_goals cases h
  all_goals simp at hf
  case h_3 line head done fs =>
    have hargs : Bare (argNodes (e :: done).reverse) := by
      rw [bare_argNodes_reverse]
      simp [he, hf]
    have happ := bare_apply head line hargs
    exact ⟨by simpa [hf, hs] using happ, Nat.le_succ _⟩
  all_goals exact ⟨by simp [he, hf, hs], Nat.le_succ _⟩

theorem afterOperand_sound {t : Token} {line : Nat} {e : Expr} {frames : List Frame} {site : Site} {d : Draft}
    (h : afterOperand t line e frames site = some d) (he : Bare e.nodes) (hf : Bare (frames.flatMap Frame.nodes))
    (hs : Bare site.nodes) : d.Sound (site.declared + 1) := by
  unfold afterOperand at h
  split at h
  · split at h
    · rename_i op _
      obtain ⟨hl, hfs⟩ := settle_bare op.level frames e he hf
      cases h
      exact ⟨by simp [hl, hfs, hs], Nat.le_succ _⟩
    · obtain ⟨hw, hfs⟩ := settle_bare 0 frames e he hf
      exact close_sound h hw hfs hs
  · cases h

theorem inExpr_sound {t : Token} {line : Nat} {frames : List Frame} {site : Site} {focus : Focus} {d : Draft}
    (h : inExpr t line frames site focus = some d) (hc : Bare focus.nodes) (hf : Bare (frames.flatMap Frame.nodes))
    (hs : Bare site.nodes) : d.Sound (site.declared + 1) := by
  cases focus with
  | operand =>
    have ho := operand_sound h hf hs
    exact ⟨ho.bare, Nat.le_succ_of_le ho.few⟩
  | value e => exact afterOperand_sound h hc hf hs
  | name l x =>
    simp only [inExpr] at h
    split at h
    · cases h
      exact ⟨by simp [hf, hs], Nat.le_succ _⟩
    · cases h
      exact ⟨by simp [hf, hs], Nat.le_succ _⟩
    · exact afterOperand_sound h (by simp [Use.fresh]) hf hs
  | negative | printOpen | argsOpen | newName | methodName | yesOpen | elseWord | noOpen =>
    simp only [inExpr] at h
    split at h
    · cases h
      simp at hc
      exact ⟨by simp [hc, hf, hs], Nat.le_succ _⟩
    · cases h

theorem inBlock_sound {t : Token} {line : Nat} {b : Block} {d : Draft} (h : inBlock t line b = some d)
    (hb : Bare b.nodes) : d.Sound (b.declared + 1) := by
  unfold inBlock at h
  split at h
  · cases h
    exact ⟨hb, Nat.le_succ _⟩
  · cases h
    exact ⟨hb, Nat.le_succ _⟩
  · split at h
    · cases h
      simp only [Block.nodes, bare_append] at hb
      exact ⟨hb.1, Nat.le_succ _⟩
    · cases h
  · split at h
    · cases h
      exact ⟨hb, Nat.le_succ _⟩
    · cases h
    · cases h
      exact ⟨hb, Nat.le_succ _⟩
  · cases h

theorem inName_sound {t : Token} {line : Nat} {p : Purpose} {d : Draft} (h : inName t line p = some d)
    (hp : Bare p.nodes) : d.Sound (p.declared + 1) := by
  unfold inName at h
  split at h
  case h_7 => cases h
  all_goals cases h
  all_goals exact ⟨hp, Nat.le_succ _⟩

theorem afterBinding_sound {t : Token} {b : Binding} {p : Purpose} {d : Draft} (h : afterBinding t b p = some d)
    (hp : Bare p.nodes) : d.Sound (p.declared + 1) := by
  unfold afterBinding at h
  split at h
  case h_7 => cases h
  all_goals cases h
  case h_3 => exact ⟨hp, Nat.le_of_eq (by simp [Draft.declared, Purpose.declared, Nat.add_assoc])⟩
  case h_4 => exact ⟨hp, Nat.le_of_eq (by simp [Draft.declared, Purpose.declared, Nat.add_assoc])⟩
  case h_1 => exact ⟨by simpa [Site.nodes, Purpose.nodes] using hp, Nat.le_succ _⟩
  all_goals exact ⟨hp, Nat.le_succ _⟩

theorem classDraft_close (c : ClassDraft) (hc : Bare c.nodes) :
    (Draft.block (.main (c.close :: c.head.earlier) [])).Sound c.declared := by
  simp only [ClassDraft.nodes, ClassHead.nodes, bare_append] at hc
  refine ⟨by simp [Block.nodes, Class.nodes, ClassDraft.close, localNodes, hc], Nat.le_of_eq ?_⟩
  simp only [Draft.declared, Block.declared, declaredIn, Class.declared, ClassDraft.close, List.length_map,
    List.length_reverse, ClassDraft.declared]
  omega

/-- **A token gives no node an entry and adds at most one member.** -/
theorem step_sound {t : Token} {line n : Nat} {d next : Draft} (h : step t line d = some next) (hd : d.Sound n) :
    next.Sound (n + 1) := by
  have hmono : ∀ {k : Nat}, k ≤ d.declared + 1 → next.Sound k → next.Sound (n + 1) := fun hk hn =>
    ⟨hn.bare, Nat.le_trans hn.few (Nat.le_trans hk (Nat.succ_le_succ hd.few))⟩
  have hb := hd.bare
  cases d with
  | start =>
    simp only [step] at h
    split at h
    · cases h
      exact ⟨bare_nil, Nat.zero_le _⟩
    · exact hmono (Nat.zero_le _) (operand_sound h bare_nil bare_nil)
  | expr focus frames site =>
    simp only [Draft.nodes, bare_append] at hb
    exact hmono (Nat.le_refl _) (inExpr_sound h hb.1.1 hb.1.2 hb.2)
  | block b => exact hmono (Nat.le_refl _) (inBlock_sound h hb)
  | methods c =>
    simp only [step] at h
    split at h
    · cases h
      exact hmono (Nat.le_succ _) ⟨hb, Nat.le_refl _⟩
    · cases h
      exact hmono (Nat.le_succ _) (classDraft_close c hb)
    · cases h
  | bind focus p =>
    cases focus with
    | name => exact hmono (Nat.le_refl _) (inName_sound h hb)
    | colon l x =>
      simp only [step] at h
      split at h
      · cases h
        exact hmono (Nat.le_succ _) ⟨hb, Nat.le_refl _⟩
      · cases h
    | ty l x =>
      obtain ⟨ty, -, rfl⟩ := Option.map_eq_some_iff.1 h
      exact hmono (Nat.le_succ _) ⟨hb, Nat.le_refl _⟩
    | done b => exact hmono (Nat.le_refl _) (afterBinding_sound h hb)
  | className earlier l | classHead head | superName head | superDone head | classOpen head fields =>
    simp only [step] at h
    split at h <;> cases h
    all_goals
      refine hmono (Nat.le_succ _) ⟨?_, Nat.le_refl _⟩
      simpa [Purpose.nodes, ClassHead.nodes, ClassDraft.nodes] using hb
  | routineOpen head o =>
    simp only [step] at h
    split at h
    · cases h
      exact hmono (Nat.le_succ _) ⟨hb, Nat.le_refl _⟩
    · exact hmono (Nat.le_succ _) (operand_sound h bare_nil hb)
  | finished p => cases h

/-- **What is read of a source has no entries and fewer members than there were tokens.** -/
theorem read_sound {breaks : List Nat} {length : Nat} {p : Program} : ∀ (ss : List Spot) {last n : Nat} {d : Draft},
    d.Sound n → read breaks length last ss d = .ok p → (Draft.finished p).Sound (n + ss.length)
  | [], _, n, d, hd, h => by
    cases d with
    | finished q =>
      cases h
      exact hd
    | _ => cases h
  | s :: ss, _, n, d, hd, h => by
    simp only [read] at h
    split at h
    · rename_i next hn
      have := read_sound ss (step_sound hn hd) h
      rwa [Nat.add_right_comm, Nat.add_assoc] at this
    · cases h

end Draft

/-! ## Types of fields -/

def fieldTypes (cs : List Class) : List Ty := cs.flatMap fun c => c.fields.map Field.ty

def ClassDraft.fieldTypes (c : ClassDraft) : List Ty := FoolLang.fieldTypes c.head.earlier ++ c.fields.map Binding.ty

mutual

def Block.fieldTypes : Block → List Ty
  | .main cs _ => FoolLang.fieldTypes cs
  | .locals _ _ o => o.fieldTypes

def Owner.fieldTypes : Owner → List Ty
  | .block b => b.fieldTypes
  | .cls c => c.fieldTypes

end

def Purpose.fieldTypes : Purpose → List Ty
  | .var _ b => b.fieldTypes
  | .routine _ o => o.fieldTypes
  | .field h done => FoolLang.fieldTypes h.earlier ++ done.map Binding.ty
  | .param _ _ o => o.fieldTypes

def Site.fieldTypes : Site → List Ty
  | .program => []
  | .main cs _ => FoolLang.fieldTypes cs
  | .var _ b => b.fieldTypes
  | .body _ _ o => o.fieldTypes

/-- The type of a typed name that has been read. -/
def BindFocus.types : BindFocus → List Ty
  | .done b => [b.ty]
  | _ => []

/-- The types of the fields in a draft, and of a typed name that may become one. -/
def Draft.fieldTypes : Draft → List Ty
  | .start => []
  | .expr _ _ site => site.fieldTypes
  | .block b => b.fieldTypes
  | .methods c => c.fieldTypes
  | .bind focus p => focus.types ++ p.fieldTypes
  | .className earlier _ => FoolLang.fieldTypes earlier
  | .classHead h | .superName h | .superDone h => FoolLang.fieldTypes h.earlier
  | .classOpen h fields => FoolLang.fieldTypes h.earlier ++ fields.map Binding.ty
  | .routineOpen _ o => o.fieldTypes
  | .finished p => FoolLang.fieldTypes p.classes

/-- None of these types is that of a method. -/
def Plain (ts : List Ty) : Prop := ∀ t ∈ ts, t.isMethod = false

theorem plain_nil : Plain [] := fun _ h => nomatch h

namespace Draft

theorem block_add_fieldTypes (b : Block) (d : Dec) : (b.add d).fieldTypes = b.fieldTypes := by
  cases b <;> simp [Block.add, Block.fieldTypes]

theorem owner_add_fieldTypes (o : Owner) (head : RoutineHead) (ls : List Dec) (e : Expr) :
    (o.add head ls e).fieldTypes = o.fieldTypes := by
  cases o with
  | block b => exact block_add_fieldTypes b _
  | cls c => rfl

theorem close_site_plain (e : Expr) (site : Site) (h : Plain site.fieldTypes) : Plain (site.close e).fieldTypes := by
  cases site with
  | program => exact h
  | main cs ds =>
    intro t ht
    simp only [Site.close, fieldTypes, FoolLang.fieldTypes, Program.classes, List.mem_flatMap, List.mem_reverse] at ht
    exact h t (List.mem_flatMap.2 ht)
  | var b blk => simpa [Site.close, fieldTypes, block_add_fieldTypes, Site.fieldTypes] using h
  | body head ls o => simpa [Site.close, owner_add_fieldTypes, Site.fieldTypes] using h

theorem operand_plain {t : Token} {line : Nat} {frames : List Frame} {site : Site} {d : Draft}
    (h : operand t line frames site = some d) (hs : Plain site.fieldTypes) : Plain d.fieldTypes := by
  unfold operand at h
  split at h
  case h_12 =>
    split at h <;> cases h
    exact hs
  all_goals cases h
  all_goals exact hs

theorem afterOperand_plain {t : Token} {line : Nat} {e : Expr} {frames : List Frame} {site : Site} {d : Draft}
    (h : afterOperand t line e frames site = some d) (hs : Plain site.fieldTypes) : Plain d.fieldTypes := by
  unfold afterOperand at h
  split at h
  · split at h
    · cases h
      exact hs
    · dsimp only at h
      unfold close at h
      split at h
      case h_9 => cases h
      case h_8 =>
        cases h
        exact close_site_plain _ site hs
      all_goals cases h
      all_goals exact hs
  · cases h

theorem inExpr_plain {t : Token} {line : Nat} {frames : List Frame} {site : Site} {focus : Focus} {d : Draft}
    (h : inExpr t line frames site focus = some d) (hs : Plain site.fieldTypes) : Plain d.fieldTypes := by
  cases focus with
  | operand => exact operand_plain h hs
  | value e => exact afterOperand_plain h hs
  | name l x =>
    simp only [inExpr] at h
    split at h
    · cases h
      exact hs
    · cases h
      exact hs
    · exact afterOperand_plain h hs
  | negative | printOpen | argsOpen | newName | methodName | yesOpen | elseWord | noOpen =>
    simp only [inExpr] at h
    split at h <;> cases h
    exact hs

theorem typeOf_plain {t : Token} {ty : Ty} (h : typeOf? t = some ty) : ty.isMethod = false := by
  unfold typeOf? at h
  split at h <;> cases h <;> rfl

theorem afterBinding_plain {t : Token} {b : Binding} {p : Purpose} {d : Draft} (h : afterBinding t b p = some d)
    (hb : b.ty.isMethod = false) (hp : Plain p.fieldTypes) : Plain d.fieldTypes := by
  unfold afterBinding at h
  split at h
  case h_7 => cases h
  all_goals cases h
  case h_3 head done | h_4 head done =>
    intro ty hty
    simp only [fieldTypes, BindFocus.types, Purpose.fieldTypes, List.nil_append, List.mem_append, List.map_reverse,
      List.mem_reverse, List.map_cons, List.mem_cons] at hty
    rcases hty with hty | rfl | hty
    · exact hp ty (List.mem_append_left _ hty)
    · exact hb
    · exact hp ty (List.mem_append_right _ hty)
  all_goals exact hp

/-- **A token adds no field with the type of a method.** -/
theorem step_plain {t : Token} {line : Nat} {d next : Draft} (h : step t line d = some next) (hd : Plain d.fieldTypes) :
    Plain next.fieldTypes := by
  cases d with
  | start =>
    simp only [step] at h
    split at h
    · cases h
      exact hd
    · exact operand_plain h hd
  | expr focus frames site => exact inExpr_plain h hd
  | block b =>
    simp only [step, inBlock] at h
    split at h
    · cases h
      exact hd
    · cases h
      exact hd
    · split at h <;> cases h
      exact hd
    · split at h <;> cases h
      · exact hd
      · exact hd
    · cases h
  | methods c =>
    simp only [step] at h
    split at h
    · cases h
      exact hd
    · cases h
      intro ty hty
      refine hd ty ?_
      simp only [fieldTypes, Block.fieldTypes, FoolLang.fieldTypes, ClassDraft.close, List.flatMap_cons, List.map_map,
        List.mem_append] at hty
      exact List.mem_append.2 hty.symm
    · cases h
  | bind focus p =>
    cases focus with
    | name =>
      simp only [step, inName] at h
      split at h
      case h_7 => cases h
      all_goals cases h
      all_goals exact hd
    | colon l x =>
      simp only [step] at h
      split at h <;> cases h
      exact hd
    | ty l x =>
      obtain ⟨ty, hty, rfl⟩ := Option.map_eq_some_iff.1 h
      exact List.forall_mem_cons.2 ⟨typeOf_plain hty, hd⟩
    | done b =>
      obtain ⟨hb, hp⟩ := List.forall_mem_cons.1 hd
      exact afterBinding_plain h hb hp
  | className earlier l | classHead head | superName head | superDone head | classOpen head fields =>
    simp only [step] at h
    split at h <;> cases h
    all_goals simpa [Plain, fieldTypes, BindFocus.types, Purpose.fieldTypes, ClassDraft.fieldTypes] using hd
  | routineOpen head o =>
    simp only [step] at h
    split at h
    · cases h
      exact hd
    · exact operand_plain h hd
  | finished p => cases h

theorem read_plain {breaks : List Nat} {length : Nat} {p : Program} : ∀ (ss : List Spot) {last : Nat} {d : Draft},
    Plain d.fieldTypes → read breaks length last ss d = .ok p → Plain (FoolLang.fieldTypes p.classes)
  | [], _, d, hd, h => by
    cases d with
    | finished q =>
      cases h
      exact hd
    | _ => cases h
  | s :: ss, _, d, hd, h => by
    simp only [read] at h
    split at h
    · exact read_plain ss (step_plain ‹_› hd) h
    · cases h

end Draft

/-! ## Sources -/

theorem Token.length_scanFrom (fuel pos : Nat) (cs : List Char) : (scanFrom fuel pos cs).length ≤ cs.length := by
  induction fuel generalizing pos cs with
  | zero => exact Nat.zero_le _
  | succ fuel ih =>
    cases cs with
    | nil => exact Nat.zero_le _
    | cons c cs =>
      obtain ⟨hne, happ⟩ := bite_append c cs
      have hlen := congrArg List.length happ
      have hpos := List.length_pos_iff.2 hne
      rw [List.length_append, List.length_cons] at hlen
      have hrest := ih (pos + Text.byteLength (bite c cs).text) (bite c cs).rest
      rw [scanFrom, List.length_cons]
      split
      · omega
      · rw [List.length_cons]
        omega

theorem length_spots : ∀ {ls : List Lexeme} {ss : List Spot}, spots ls = .ok ss → ss.length ≤ ls.length
  | [], _, h => by
    cases h
    exact Nat.zero_le _
  | l :: ls, ss, h => by
    rw [spots] at h
    split at h
    · cases hs : spots ls with
      | error e => rw [hs] at h; cases h
      | ok rest =>
        rw [hs] at h
        cases h
        exact Nat.succ_le_succ (length_spots hs)
    · cases h
    · cases h
      exact Nat.zero_le _

theorem Text.length_le_byteLength : ∀ cs : List Char, cs.length ≤ byteLength cs
  | [] => Nat.le_refl _
  | c :: cs => by
    have := length_le_byteLength cs
    have := c.utf8Size_pos
    simp only [List.length_cons, byteLength]
    omega

/-- **A program that was just parsed has no entries, fewer members than its source has bytes, and no field with the type
of a method.** -/
theorem parse_sound {source : List Char} {p : Program} (h : parse source = .ok p) :
    (∀ n ∈ p.nodes, n.entries = []) ∧ declaredIn p.classes ≤ Text.byteLength source ∧
      Plain (fieldTypes p.classes) := by
  unfold parse at h
  cases hs : spots (Token.scan source) with
  | error e => rw [hs] at h; cases h
  | ok ss =>
    rw [hs] at h
    have hlen := Nat.le_trans (length_spots hs) (Token.length_scanFrom source.length 0 source)
    have hbytes := Text.length_le_byteLength source
    change (Draft.read (lineBreaks 0 source) (Text.byteLength source) 0 ss .start >>= _) = _ at h
    cases hr : Draft.read (lineBreaks 0 source) (Text.byteLength source) 0 ss .start with
    | error e => rw [hr] at h; cases h
    | ok q =>
      have hstart : Draft.start.Sound 0 := ⟨bare_nil, Nat.le_refl _⟩
      have hq := Draft.read_sound ss hstart hr
      have hqp : q = p := by
        rw [hr] at h
        dsimp only [bind, Except.bind] at h
        split at h
        · cases h
        · cases h
          rfl
      subst hqp
      exact ⟨hq.bare, Nat.le_trans hq.few (by omega), Draft.read_plain ss (d := .start) plain_nil hr⟩

end FoolLang
