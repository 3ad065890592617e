import FoolLang.Proofs.Statements
/-!
# Assembling — what a text assembles to

A text assembles exactly when it lists statements that define each label once and mention only labels that can be
resolved, and when its instructions fit the limit; then a label stands for the number of instructions before its
definition, wherever that is.  Otherwise the first fault in the text is the error, or else the first mention that cannot
be resolved, or else the size (`assemble_as_listed`).
-/
namespace FoolLang
namespace Assembly

open Text

/-! ## Labels that are mentioned -/

/-- A mention that cannot be resolved, with its error: nobody defines the label, or its address is pushed and no 32-bit
integer. -/
inductive Unresolved (ss : Listing) : Statement → AsmError → Prop
  | pushed (x : Ident) (line : Nat) (h : x ∉ ss.definitions) :
    Unresolved ss (.pushLabel x line) (.undefinedLabel x line)
  | target (b : Branch) (x : Ident) (line : Nat) (h : x ∉ ss.definitions) :
    Unresolved ss (.branch b x line) (.undefinedLabel x line)
  | far (x : Ident) (line : Nat) (h : x ∈ ss.definitions) (ha : maxInt32 < ss.address x) :
    Unresolved ss (.pushLabel x line) (.codeTooLarge (ss.address x) maxInt32)

namespace Listing

variable {ss : Listing}

/-- All mentions can be resolved. -/
def Resolved (ss : Listing) : Prop := ∀ s ∈ ss, ∀ e, ¬ Unresolved ss s e

/-- The first mention that cannot be resolved has this error. -/
def FirstUnresolved (ss : Listing) (e : AsmError) : Prop :=
  ∃ before s after, ss = before ++ s :: after ∧ (∀ r ∈ before, ∀ f, ¬ Unresolved ss r f) ∧ Unresolved ss s e

theorem resolved_iff : ss.Resolved ↔ (∀ s ∈ ss, ∀ x, s.mentions = some x → x ∈ ss.definitions) ∧
    ∀ x line, .pushLabel x line ∈ ss → ss.address x ≤ maxInt32 := by
  constructor
  · intro h
    have hdefined : ∀ s ∈ ss, ∀ x, s.mentions = some x → x ∈ ss.definitions := by
      intro s hs x hx
      refine Classical.byContradiction fun hn => ?_
      cases s with
      | pushLabel _ line =>
        cases hx
        exact h _ hs _ (.pushed x line hn)
      | branch b _ line =>
        cases hx
        exact h _ hs _ (.target b x line hn)
      | _ => cases hx
    refine ⟨hdefined, fun x line hs => Nat.le_of_not_lt fun ha => ?_⟩
    exact h _ hs _ (.far x line (hdefined _ hs x rfl) ha)
  · rintro ⟨hdefined, hnear⟩ s hs e he
    cases he with
    | pushed x line hn => exact hn (hdefined _ hs x rfl)
    | target b x line hn => exact hn (hdefined _ hs x rfl)
    | far x line _ ha => exact Nat.not_lt.2 (hnear x line hs) ha

theorem resolved_or_first (ss : Listing) : ss.Resolved ∨ ∃ e, ss.FirstUnresolved e := by
  classical
  cases hf : ss.find? fun s => decide (∃ e, Unresolved ss s e) with
  | none =>
    refine .inl fun s hs e he => ?_
    exact List.find?_eq_none.1 hf s hs (decide_eq_true ⟨e, he⟩)
  | some s =>
    obtain ⟨hs, before, after, hsplit, hbefore⟩ := List.find?_eq_some_iff_append.1 hf
    obtain ⟨e, he⟩ := of_decide_eq_true hs
    refine .inr ⟨e, before, s, after, hsplit, fun r hr f hrf => ?_, he⟩
    have hnot := hbefore r hr
    rw [Bool.not_eq_true', decide_eq_false_iff_not] at hnot
    exact hnot ⟨f, hrf⟩

end Listing

/-! ## Linking -/

section

variable {labels : Labels} {ss : Listing}

theorem link_resolved {s : Statement} {u : Unlinked} (hl : ∀ x, labels.find? x =
      if .define x ∈ ss then some (Listing.address ss x) else none)
    (hs : ∀ e, ¬ Unresolved ss s e) (hu : s.unlinked? = some u) :
    ∃ i, s.instr? (Listing.address ss) = some i ∧ link labels u = .ok i := by
  have hdefined : ∀ {x}, labels.find? x = none → x ∉ Listing.definitions ss := fun {x} hx hm => by
    rw [hl x, if_pos (Listing.mem_definitions.1 hm)] at hx
    cases hx
  have hfound : ∀ {x a}, labels.find? x = some a → x ∈ Listing.definitions ss ∧ a = Listing.address ss x := by
    intro x a hx
    rw [hl x] at hx
    split at hx
    · rename_i hm
      exact ⟨Listing.mem_definitions.2 hm, (Option.some.inj hx).symm⟩
    · cases hx
  cases s with
  | define x => cases hu
  | push v =>
    cases hu
    exact ⟨.push v, rfl, by rw [link, Int32.ofInt_toInt]⟩
  | op o =>
    cases hu
    exact ⟨.op o, rfl, rfl⟩
  | pushLabel x line =>
    cases hu
    cases hx : labels.find? x with
    | none => exact absurd (.pushed x line (hdefined hx)) (hs _)
    | some a =>
      obtain ⟨hm, rfl⟩ := hfound hx
      have hnear : Listing.address ss x ≤ maxInt32 := Nat.le_of_not_lt fun ha => hs _ (.far x line hm ha)
      exact ⟨_, rfl, by simp only [link, hx, if_pos hnear]⟩
  | branch b x line =>
    cases hu
    cases hx : labels.find? x with
    | none => exact absurd (.target b x line (hdefined hx)) (hs _)
    | some a =>
      obtain ⟨-, rfl⟩ := hfound hx
      exact ⟨_, rfl, by simp only [link, hx]⟩

theorem link_unresolved {s : Statement} {e : AsmError} (hl : ∀ x, labels.find? x =
      if .define x ∈ ss then some (Listing.address ss x) else none)
    (hs : Unresolved ss s e) : ∃ u, s.unlinked? = some u ∧ link labels u = .error e := by
  cases hs with
  | pushed x line hn =>
    have hx := (hl x).trans (if_neg fun hm => hn (Listing.mem_definitions.2 hm))
    exact ⟨_, rfl, by simp only [link, hx]⟩
  | target b x line hn =>
    have hx := (hl x).trans (if_neg fun hm => hn (Listing.mem_definitions.2 hm))
    exact ⟨_, rfl, by simp only [link, hx]⟩
  | far x line hm ha =>
    have hx := (hl x).trans (if_pos (Listing.mem_definitions.1 hm))
    exact ⟨_, rfl, by simp only [link, hx, if_neg (Nat.not_le.2 ha)]⟩

/-- **Statements without a mention that cannot be resolved are linked**, whatever is linked after them. -/
theorem linkAll_resolved (hl : ∀ x, labels.find? x =
      if .define x ∈ ss then some (Listing.address ss x) else none) (us : List Unlinked) :
    ∀ l : Listing, (∀ s ∈ l, ∀ e, ¬ Unresolved ss s e) → linkAll labels (l.filterMap Statement.unlinked? ++ us) =
      (linkAll labels us).map (l.filterMap (Statement.instr? (Listing.address ss)) ++ ·)
  | [], _ => by
    rw [List.filterMap_nil, List.nil_append]
    cases linkAll labels us <;> rfl
  | s :: l, h => by
    have ih := linkAll_resolved hl us l fun r hr => h r (List.mem_cons_of_mem _ hr)
    cases hu : s.unlinked? with
    | none =>
      have hi : s.instr? (Listing.address ss) = none := by cases s <;> first | rfl | cases hu
      rw [List.filterMap_cons_none hu, List.filterMap_cons_none hi, ih]
    | some u =>
      obtain ⟨i, hi, hlink⟩ := link_resolved hl (h s List.mem_cons_self) hu
      rw [List.filterMap_cons_some hu, List.filterMap_cons_some hi, List.cons_append, linkAll, hlink, ih]
      cases linkAll labels us <;> rfl

end

/-! ## Texts -/

section

variable {text : List Char} {ss : Listing} {e : AsmError}

/-- The first fault of a text: what stands before it spells statements, no label defined twice. -/
def FirstFault (ws : List WordAt) (e : AsmError) : Prop :=
  ∃ before rest ss, ws = before ++ rest ∧ Spells before ss ∧ ss.definitions.Nodup ∧
    Fault (fun x => x ∈ ss.definitions) rest e

theorem assemble_of_fault (h : FirstFault (scan text) e) (limit : Nat) : assemble text limit = .error e := by
  obtain ⟨before, rest, ss, hscan, hspells, honce, hfault⟩ := h
  have hfresh := Listing.fresh_empty honce
  have hstop : collect (Labels.empty.after 0 ss) (0 + ss.size) rest = .error e := by
    refine collect_fault hfault (fun x hx => ?_) _
    rw [Labels.find?_after hfresh x, if_pos (Listing.mem_definitions.1 hx)]
    rfl
  have hread : collect .empty 0 (scan text) = .error e := by
    rw [hscan, collect_spells hspells hfresh, hstop]
    rfl
  rw [assemble, hread]
  rfl

/-- What is left to do with a text that lists statements. -/
theorem assemble_of_spells (hspells : Spells (scan text) ss) (honce : ss.definitions.Nodup) (limit : Nat) :
    assemble text limit = linkAll (Labels.empty.after 0 ss) (ss.filterMap Statement.unlinked?) >>= fun out =>
      if out.length ≤ limit then .ok out else .error (.codeTooLarge out.length limit) := by
  have hread : collect .empty 0 (scan text) =
      .ok (ss.filterMap Statement.unlinked?, Labels.empty.after 0 ss) := by
    have hall : collect .empty 0 (scan text ++ []) = prepend (ss.filterMap Statement.unlinked?)
        (collect (Labels.empty.after 0 ss) (0 + ss.size) []) := collect_spells hspells (Listing.fresh_empty honce)
    rw [List.append_nil] at hall
    rw [hall, collect]
    exact congrArg (fun us => Except.ok (us, _)) (List.append_nil _)
  rw [assemble, hread]
  rfl

theorem find?_after_empty (honce : ss.definitions.Nodup) (x : Ident) : (Labels.empty.after 0 ss).find? x =
    if .define x ∈ ss then some (ss.address x) else none := by
  rw [Labels.find?_after (Listing.fresh_empty honce) x, Labels.find?_empty, Nat.zero_add]

theorem assemble_of_resolved (hspells : Spells (scan text) ss) (honce : ss.definitions.Nodup) (h : ss.Resolved)
    (limit : Nat) : assemble text limit =
      if ss.size ≤ limit then .ok ss.link else .error (.codeTooLarge ss.size limit) := by
  have hlink : linkAll (Labels.empty.after 0 ss) (ss.filterMap Statement.unlinked?) = .ok ss.link := by
    have hall := linkAll_resolved (find?_after_empty honce) [] ss h
    rw [List.append_nil] at hall
    rw [hall]
    exact congrArg Except.ok (List.append_nil _)
  rw [assemble_of_spells hspells honce, hlink, ← ss.length_link]
  rfl

theorem assemble_of_unresolved (hspells : Spells (scan text) ss) (honce : ss.definitions.Nodup)
    (h : ss.FirstUnresolved e) (limit : Nat) : assemble text limit = .error e := by
  obtain ⟨before, s, after, hsplit, hbefore, hs⟩ := h
  obtain ⟨u, hu, hlink⟩ := link_unresolved (find?_after_empty honce) hs
  have hall : linkAll (Labels.empty.after 0 ss) (ss.filterMap Statement.unlinked?) = .error e := by
    have hmap : ss.filterMap Statement.unlinked? =
        before.filterMap Statement.unlinked? ++ u :: after.filterMap Statement.unlinked? := by
      rw [hsplit, List.filterMap_append, List.filterMap_cons_some hu]
    rw [hmap, linkAll_resolved (find?_after_empty honce) _ before hbefore, linkAll, hlink]
    rfl
  rw [assemble_of_spells hspells honce, hall]
  rfl

/-- **A text has a fault, or it lists statements.** -/
theorem fault_or_spells (text : List Char) : (∃ e, FirstFault (scan text) e) ∨
    ∃ ss, Spells (scan text) ss ∧ ss.definitions.Nodup := by
  obtain ⟨before, rest, ss, hscan, hspells, hfresh, hend⟩ := exists_reading .empty 0 (scan text) (numbersFit_scan text)
  rcases hend with rfl | ⟨e, he⟩
  · rw [List.append_nil] at hscan
    exact .inr ⟨ss, hscan ▸ hspells, hfresh.once⟩
  · refine .inl ⟨e, before, rest, ss, hscan, hspells, hfresh.once, he.imp fun x hx => Listing.mem_definitions.2 ?_⟩
    rw [Labels.find?_empty] at hx
    exact hx.resolve_left Bool.false_ne_true

end

/-! ## Mnemonics -/

/-- The mnemonic among the words. -/
def Word.isMnemonic : Word → Bool
  | .push | .branch _ | .op _ => true
  | _ => false

/-- The mnemonic of an instruction, as a word. -/
def keyword : Instr → Word
  | .push _ => .push
  | .branch b _ => .branch b
  | .op o => .op o

/-- **There is one instruction for each mnemonic, in order.** -/
theorem keywords_of_spells {ws : List WordAt} {ss : Listing} (h : Spells ws ss) (address : Ident → Nat) :
    (ss.filterMap (Statement.instr? address)).map keyword = (ws.filterMap WordAt.word).filter Word.isMnemonic := by
  induction h with
  | nil => rfl
  | cons head _ ih =>
    rw [List.filterMap_append, List.filter_append, ← ih]
    cases head <;> rfl

theorem target_le_length {ss : Listing} {b : Branch} {a : Nat} (h : .branch b a ∈ ss.link) : a ≤ ss.link.length := by
  rw [ss.length_link]
  obtain ⟨s, -, hs⟩ := List.mem_filterMap.1 h
  cases s with
  | branch b' x line =>
    cases hs
    exact ss.address_le_size x
  | _ => cases hs

end Assembly

open Assembly

/-- **What a text assembles to.**  It is accepted exactly when its words spell statements, no label is defined twice,
each label that is mentioned is defined somewhere, each that is pushed has an address among the 32-bit integers, and
there are no more instructions than the limit; the instructions are those of its mnemonics, in order, and a branch goes
to the end of the code at most.  If it is refused, the error is that of the first fault in the text; if there is none,
that of the first mention that cannot be resolved; if there is none either, that of the size. -/
theorem assemble_as_listed (text : List Char) (limit : Nat) :
    (∀ out, assemble text limit = .ok out ↔ ∃ ss : Listing, Spells (scan text) ss ∧ ss.definitions.Nodup ∧
      (∀ s ∈ ss, ∀ x, s.mentions = some x → x ∈ ss.definitions) ∧
      (∀ x line, .pushLabel x line ∈ ss → ss.address x ≤ Text.maxInt32) ∧ ss.size ≤ limit ∧
      out = ss.filterMap (Statement.instr? ss.address)) ∧
    (∀ out, assemble text limit = .ok out →
      out.map keyword = ((scan text).filterMap WordAt.word).filter Word.isMnemonic ∧
      ∀ b a, .branch b a ∈ out → a ≤ out.length) ∧
    (∀ e, assemble text limit = .error e ↔ FirstFault (scan text) e ∨
      (∃ ss : Listing, Spells (scan text) ss ∧ ss.definitions.Nodup ∧ ss.FirstUnresolved e) ∨
      ∃ ss : Listing, Spells (scan text) ss ∧ ss.definitions.Nodup ∧ ss.Resolved ∧ limit < ss.size ∧
        e = .codeTooLarge ss.size limit) := by
  -- each text is of one of the kinds, and each kind has its outcome
  have hkinds : (∃ e, FirstFault (scan text) e ∧ assemble text limit = .error e) ∨
      ∃ ss : Listing, Spells (scan text) ss ∧ ss.definitions.Nodup ∧
        ((∃ e, ss.FirstUnresolved e ∧ assemble text limit = .error e) ∨
          ss.Resolved ∧ assemble text limit =
            if ss.size ≤ limit then .ok ss.link else .error (.codeTooLarge ss.size limit)) := by
    rcases fault_or_spells text with ⟨e, he⟩ | ⟨ss, hspells, honce⟩
    · exact .inl ⟨e, he, assemble_of_fault he limit⟩
    · refine .inr ⟨ss, hspells, honce, ?_⟩
      rcases ss.resolved_or_first with hres | ⟨e, he⟩
      · exact .inr ⟨hres, assemble_of_resolved hspells honce hres limit⟩
      · exact .inl ⟨e, he, assemble_of_unresolved hspells honce he limit⟩
  have hok : ∀ out, assemble text limit = .ok out → ∃ ss : Listing, Spells (scan text) ss ∧ ss.definitions.Nodup ∧
      ss.Resolved ∧ ss.size ≤ limit ∧ out = ss.link := by
    intro out hout
    rcases hkinds with ⟨e, -, he⟩ | ⟨ss, hspells, honce, ⟨e, -, he⟩ | ⟨hres, he⟩⟩
    · cases hout.symm.trans he
    · cases hout.symm.trans he
    · rw [hout] at he
      split at he
      · rename_i hsize
        exact ⟨ss, hspells, honce, hres, hsize, Except.ok.inj he⟩
      · cases he
  refine ⟨fun out => ⟨fun hout => ?_, ?_⟩, fun out hout => ?_, fun e => ⟨fun herr => ?_, ?_⟩⟩
  · obtain ⟨ss, hspells, honce, hres, hsize, rfl⟩ := hok out hout
    obtain ⟨hdefined, hnear⟩ := Listing.resolved_iff.1 hres
    exact ⟨ss, hspells, honce, hdefined, hnear, hsize, rfl⟩
  · rintro ⟨ss, hspells, honce, hdefined, hnear, hsize, rfl⟩
    rw [assemble_of_resolved hspells honce (Listing.resolved_iff.2 ⟨hdefined, hnear⟩), if_pos hsize]
    rfl
  · obtain ⟨ss, hspells, -, -, -, rfl⟩ := hok out hout
    exact ⟨keywords_of_spells hspells _, fun b a => target_le_length⟩
  · rcases hkinds with ⟨f, hf, he⟩ | ⟨ss, hspells, honce, ⟨f, hf, he⟩ | ⟨hres, he⟩⟩
    · cases herr.symm.trans he
      exact .inl hf
    · cases herr.symm.trans he
      exact .inr (.inl ⟨ss, hspells, honce, hf⟩)
    · rw [herr] at he
      split at he
      · cases he
      · rename_i hsize
        exact .inr (.inr ⟨ss, hspells, honce, hres, Nat.lt_of_not_le hsize, Except.error.inj he⟩)
  · rintro (hf | ⟨ss, hspells, honce, hf⟩ | ⟨ss, hspells, honce, hres, hsize, rfl⟩)
    · exact assemble_of_fault hf limit
    · exact assemble_of_unresolved hspells honce hf limit
    · rw [assemble_of_resolved hspells honce hres, if_neg (Nat.not_le.2 hsize)]

/-- Two labels in a row, one at the very end, and mentions before and after the definitions. -/
def tourText : List Char := "start: again: push end // not defined yet\npush -7 b far\nbeq start far: halt end:".toList

def tourCode : List Instr := [.push 5, .push (-7), .branch .always 4, .branch .ifEqual 0, .op .halt]

/-- A label that is defined twice, before a word that is none. -/
def twiceText : List Char := "one: pop\none: $".toList

/-- The first text assembles as it lists its statements.  In the second one the label that is defined twice comes first,
be there room or not. -/
theorem tourText_listed :
    assemble tourText 5 = .ok tourCode ∧
    tourCode.map keyword = ((scan tourText).filterMap WordAt.word).filter Word.isMnemonic ∧
    (∀ b a, .branch b a ∈ tourCode → a ≤ tourCode.length) ∧
    (∃ ss : Listing, Spells (scan tourText) ss ∧ ss.definitions.Nodup ∧ ss.size ≤ 5 ∧
      tourCode = ss.filterMap (Statement.instr? ss.address)) ∧
    assemble twiceText 0 = .error (.duplicateLabel ⟨"one".toList⟩ 2) := by
  have hcode : assemble tourText 5 = .ok tourCode := by rfl
  obtain ⟨haccepted, hshape, -⟩ := assemble_as_listed tourText 5
  obtain ⟨hkeywords, htargets⟩ := hshape tourCode hcode
  obtain ⟨ss, hspells, honce, -, -, hsize, hout⟩ := (haccepted tourCode).1 hcode
  obtain ⟨-, -, hrefused⟩ := assemble_as_listed twiceText 0
  refine ⟨hcode, hkeywords, htargets, ⟨ss, hspells, honce, hsize, hout⟩, (hrefused _).2 (.inl ?_)⟩
  -- the definition and the instruction before it are spelled, and stand for two statements
  refine ⟨(scan twiceText).take 3, (scan twiceText).drop 3, [.define ⟨"one".toList⟩, .op .pop],
    (List.take_append_drop _ _).symm, ?_, by decide, ?_⟩
  · exact .cons (.define ⟨"one".toList⟩) (.cons (.op .pop) .nil)
  · exact .definedAgain ⟨"one".toList⟩ 2 List.mem_cons_self

end FoolLang
