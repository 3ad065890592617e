import FoolLang.Proofs.Assembling
import Mathlib.Data.List.Forall2
/-!
# Linking — the instructions of a code

A code whose labels are all defined, each of them once, and whose operands fit 32 bits assembles: every line but the
definitions of labels becomes an instruction, and a label becomes the number of instructions before its definition
(`assemble_text`).  Two limits remain, the one given and the one that an address which is pushed must be a 32-bit
integer; both are reported as code that is too large.
-/
namespace FoolLang

open Assembly

/-- Whether a line is an instruction; the definition of a label is none. -/
def Line.isInstr : Line → Bool
  | .define _ => false
  | _ => true

def Line.uses (l : Label) : Line → Bool
  | .pushLabel m | .branch _ m => m == l
  | _ => false

/-- The instruction a line is linked to, when labels have these addresses. -/
def Line.instr? (address : Label → Nat) : Line → Option Instr
  | .define _ => none
  | .push n => some (.push (Int32.ofInt n))
  | .pushLabel l => some (.push (Int32.ofNat (address l)))
  | .branch b l => some (.branch b (address l))
  | .op o => some (.op o)

theorem Line.isSome_instr? (address : Label → Nat) (l : Line) : (l.instr? address).isSome = l.isInstr := by
  cases l <;> rfl

namespace Code

def size (code : Code) : Nat := code.countP Line.isInstr

@[simp] theorem size_nil : size [] = 0 := rfl

@[simp] theorem size_append (a b : Code) : size (a ++ b) = size a + size b := List.countP_append

theorem size_cons (l : Line) (code : Code) : size (l :: code) = size code + if l.isInstr then 1 else 0 :=
  List.countP_cons

@[simp] theorem size_define (l : Label) (code : Code) : size (.define l :: code) = size code := by
  simp [size_cons, Line.isInstr]

@[simp] theorem size_push (n : Int) (code : Code) : size (.push n :: code) = size code + 1 := by
  simp [size_cons, Line.isInstr]

@[simp] theorem size_pushLabel (l : Label) (code : Code) : size (.pushLabel l :: code) = size code + 1 := by
  simp [size_cons, Line.isInstr]

@[simp] theorem size_branch (b : Branch) (l : Label) (code : Code) : size (.branch b l :: code) = size code + 1 := by
  simp [size_cons, Line.isInstr]

@[simp] theorem size_op (o : Op) (code : Code) : size (.op o :: code) = size code + 1 := by
  simp [size_cons, Line.isInstr]

/-- How many instructions come before the definition of a label. -/
def address (code : Code) (l : Label) : Nat := size (code.takeWhile (· ≠ .define l))

theorem address_le_size (code : Code) (l : Label) : code.address l ≤ code.size :=
  (List.takeWhile_prefix _).sublist.countP_le

theorem address_cons_self (l : Label) (code : Code) : address (.define l :: code) l = 0 := by simp [address]

theorem address_cons_ne {l : Label} {line : Line} (h : line ≠ .define l) (code : Code) :
    address (line :: code) l = address code l + if line.isInstr then 1 else 0 := by
  rw [address, List.takeWhile_cons_of_pos (by simpa using h), size_cons]
  rfl

def link (code : Code) : List Instr := code.filterMap (Line.instr? code.address)

/-- The labels that a code pushes stand for 32-bit integers. -/
def Addressable (code : Code) : Prop := ∀ l, .pushLabel l ∈ code → code.address l ≤ Text.maxInt32

theorem addressable_of_size {code : Code} (h : code.size ≤ Text.maxInt32) : code.Addressable :=
  fun l _ => Nat.le_trans (code.address_le_size l) h

theorem length_link (code : Code) : code.link.length = code.size := by
  rw [link, List.length_filterMap_eq_countP, size]
  congr 1
  funext l
  exact l.isSome_instr? _

/-- **A line is linked to the instruction at its place.** -/
theorem getElem?_link {pre rest code : Code} {line : Line} {i : Instr} (h : pre ++ line :: rest = code)
    (hi : line.instr? code.address = some i) : code.link[pre.size]? = some i := by
  have hlen : (pre.filterMap (Line.instr? code.address)).length = pre.size := by
    rw [List.length_filterMap_eq_countP, size]
    congr 1
    funext l
    exact l.isSome_instr? _
  have hlink : code.link = (pre ++ line :: rest).filterMap (Line.instr? code.address) := by rw [link, h]
  rw [hlink, List.filterMap_append, List.filterMap_cons_some hi, ← hlen,
    List.getElem?_append_right (Nat.le_refl _), Nat.sub_self]
  rfl

/-- **A label stands for the place of its only definition.** -/
theorem address_of_define {pre rest code : Code} {l : Label} (h : pre ++ .define l :: rest = code)
    (hone : code.count (.define l) ≤ 1) : code.address l = pre.size := by
  have hpre : .define l ∉ pre := fun hm => by
    have hpos := List.count_pos_iff.2 hm
    rw [← h, List.count_append, List.count_cons_self] at hone
    omega
  have hne : ∀ x ∈ pre, decide (x ≠ .define l) = true := fun x hx => by
    rw [decide_eq_true_iff]
    rintro rfl
    exact hpre hx
  rw [address, ← h, List.takeWhile_append_of_pos hne, List.takeWhile_cons_of_neg (by simp), List.append_nil]

/-- Codes that assemble. -/
structure WellFormed (code : Code) : Prop where
  fits : ∀ l ∈ code, l.Fits
  definedOnce : ∀ l, code.count (.define l) ≤ 1
  closed : ∀ line ∈ code, ∀ l, line.uses l = true → .define l ∈ code

end Code

namespace Assembly

/-- What a line is as a statement, whatever line of text it stands on. -/
inductive Statement.Of : Line → Statement → Prop
  | define (l : Label) : Of (.define l) (.define l.ident)
  | push (v : Int32) : Of (.push v.toInt) (.push v)
  | pushLabel (l : Label) (line : Nat) : Of (.pushLabel l) (.pushLabel l.ident line)
  | branch (b : Branch) (l : Label) (line : Nat) : Of (.branch b l) (.branch b l.ident line)
  | op (o : Op) : Of (.op o) (.op o)

theorem exists_spelled {line : Line} {ws : List WordAt} {rest : List (Option Word)} (hf : line.Fits)
    (hw : ws.map WordAt.word = line.words.map some ++ rest) :
    ∃ s before after, ws = before ++ after ∧ s.Spelled before ∧ Statement.Of line s ∧ after.map WordAt.word = rest := by
  cases line with
  | op o =>
    obtain ⟨t, k, after, rfl, hafter⟩ := exists_word hw
    exact ⟨.op o, [_], after, rfl, .op o, .op o, hafter⟩
  | define l =>
    obtain ⟨t, k, t', k', after, rfl, hafter⟩ := exists_words hw
    exact ⟨.define l.ident, _, after, rfl, .define l.ident, .define l, hafter⟩
  | push n =>
    obtain ⟨v, rfl⟩ := exists_toInt_eq hf
    obtain ⟨t, k, t', k', after, rfl, hafter⟩ := exists_words hw
    exact ⟨.push v, _, after, rfl, .push v, .push v, hafter⟩
  | pushLabel l =>
    obtain ⟨t, k, t', k', after, rfl, hafter⟩ := exists_words hw
    exact ⟨.pushLabel l.ident k, _, after, rfl, .pushLabel l.ident, .pushLabel l k, hafter⟩
  | branch b l =>
    obtain ⟨t, k, t', k', after, rfl, hafter⟩ := exists_words hw
    exact ⟨.branch b l.ident k, _, after, rfl, .branch b l.ident, .branch b l k, hafter⟩

/-- **The words of a code spell its lines.** -/
theorem exists_spells : ∀ {code : Code} {ws : List WordAt}, (∀ l ∈ code, l.Fits) →
    ws.map WordAt.word = (code.flatMap Line.words).map some → ∃ ss, Spells ws ss ∧ List.Forall₂ Statement.Of code ss
  | [], ws, _, hw => by
    obtain rfl := List.map_eq_nil_iff.1 hw
    exact ⟨[], .nil, .nil⟩
  | line :: code, ws, hf, hw => by
    rw [List.flatMap_cons, List.map_append] at hw
    obtain ⟨s, before, after, rfl, hs, hline, hafter⟩ := exists_spelled (hf line List.mem_cons_self) hw
    obtain ⟨ss, hss, hcode⟩ := exists_spells (fun l hl => hf l (List.mem_cons_of_mem _ hl)) hafter
    exact ⟨s :: ss, .cons hs hss, .cons hline hcode⟩

/-! ## A code and its statements -/

theorem exists_related {α β : Type} {R : α → β → Prop} {as : List α} {bs : List β} (h : List.Forall₂ R as bs) :
    ∀ a ∈ as, ∃ b ∈ bs, R a b := by
  induction h with
  | nil => exact nofun
  | @cons a b as bs hab _ ih =>
    intro x hx
    rcases List.mem_cons.1 hx with rfl | hx
    · exact ⟨b, List.mem_cons_self, hab⟩
    · obtain ⟨y, hy, hxy⟩ := ih x hx
      exact ⟨y, List.mem_cons_of_mem _ hy, hxy⟩

section

variable {code : Code} {ss : Listing}

theorem size_of (h : List.Forall₂ Statement.Of code ss) : ss.size = code.size := by
  induction h with
  | nil => rfl
  | @cons line s code ss hs _ ih =>
    rw [Listing.size_cons, Code.size_cons, ih, Nat.add_comm]
    cases hs <;> rfl

theorem address_of (h : List.Forall₂ Statement.Of code ss) (l : Label) :
    Listing.address ss l.ident = code.address l := by
  induction h with
  | nil => rfl
  | @cons line s code ss hs _ ih =>
    by_cases hl : line = .define l
    · subst hl
      cases hs
      rw [Listing.address_cons_self, Code.address_cons_self]
    · have hne : s ≠ .define l.ident := by
        intro he
        cases hs with
        | define m => exact hl (congrArg _ (Label.ident_inj (Statement.define.inj he)))
        | _ => cases he
      rw [Listing.address_cons_ne hne, Code.address_cons_ne hl, ih, Nat.add_comm]
      cases hs <;> rfl

theorem link_of (h : List.Forall₂ Statement.Of code ss) : ss.link = code.link := by
  have hinstr : ∀ {address : Label → Nat} {code : Code} {l : Listing}, List.Forall₂ Statement.Of code l →
      (∀ m, Listing.address ss m.ident = address m) →
      l.filterMap (Statement.instr? (Listing.address ss)) = code.filterMap (Line.instr? address) := by
    intro address code l h ha
    induction h with
    | nil => rfl
    | @cons line s code l hs _ ih =>
      have hsame : s.instr? (Listing.address ss) = line.instr? address := by
        cases hs with
        | push v => exact congrArg (some ∘ Instr.push) (Int32.ofInt_toInt v).symm
        | pushLabel m k | branch b m k => simp only [Statement.instr?, Line.instr?, ha m]
        | _ => rfl
      rw [List.filterMap_cons, List.filterMap_cons, hsame, ih]
  exact hinstr h (address_of h)

theorem mem_definitions_of (h : List.Forall₂ Statement.Of code ss) (l : Label) :
    l.ident ∈ ss.definitions ↔ .define l ∈ code := by
  rw [Listing.mem_definitions]
  constructor
  · intro hm
    obtain ⟨line, hline, hs⟩ := exists_related h.flip _ hm
    generalize he : Statement.define l.ident = s at hs
    cases hs with
    | define m => rwa [Label.ident_inj (Statement.define.inj he)]
    | _ => cases he
  · intro hm
    obtain ⟨s, hs, hof⟩ := exists_related h _ hm
    cases hof
    exact hs

theorem nodup_definitions_of (h : List.Forall₂ Statement.Of code ss) (honce : ∀ l, code.count (.define l) ≤ 1) :
    ss.definitions.Nodup := by
  induction h with
  | nil => exact List.nodup_nil
  | @cons line s code ss hs hss ih =>
    have ih := ih fun l => Nat.le_trans List.count_le_count_cons (honce l)
    cases hs with
    | define l =>
      refine List.nodup_cons.2 ⟨fun hm => ?_, ih⟩
      have htwice := honce l
      have hpos := List.count_pos_iff.2 ((mem_definitions_of hss l).1 hm)
      rw [List.count_cons_self] at htwice
      omega
    | _ => exact ih

end

end Assembly

namespace Code.WellFormed

variable {code : Code}

/-- A code lists its lines, each label defined once, and mentions only labels that it defines. -/
theorem exists_listing (h : code.WellFormed) : ∃ ss : Listing, Spells (scan code.text) ss ∧ ss.definitions.Nodup ∧
    List.Forall₂ Statement.Of code ss ∧ ∀ s ∈ ss, ∀ x, s.mentions = some x → x ∈ ss.definitions := by
  obtain ⟨ss, hspells, hof⟩ := exists_spells h.fits (reads_text h.fits code.text.length 1 (Nat.le_refl _))
  refine ⟨ss, hspells, nodup_definitions_of hof h.definedOnce, hof, fun s hs x hx => ?_⟩
  obtain ⟨line, hline, hls⟩ := exists_related hof.flip s hs
  cases hls with
  | pushLabel l | branch b l =>
    cases hx
    exact (mem_definitions_of hof l).2 (h.closed _ hline l (by simp [Line.uses]))
  | _ => cases hx

/-- What is left of assembling once the text is read: linking, and the limit. -/
theorem assemble_eq (h : code.WellFormed) (limit : Nat) :
    assemble code.text limit = (if code.size ≤ limit then .ok code.link else .error (.codeTooLarge code.size limit)) ∧
        code.Addressable ∨
      ∃ l, Text.maxInt32 < code.address l ∧
        assemble code.text limit = .error (.codeTooLarge (code.address l) Text.maxInt32) := by
  obtain ⟨ss, hspells, honce, hof, hdefined⟩ := h.exists_listing
  rcases ss.resolved_or_first with hres | ⟨e, he⟩
  · refine .inl ⟨?_, fun l hl => ?_⟩
    · rw [assemble_of_resolved hspells honce hres, size_of hof, link_of hof]
    · obtain ⟨s, hs, hls⟩ := exists_related hof _ hl
      cases hls with
      | pushLabel _ k =>
        rw [← address_of hof l]
        exact (Listing.resolved_iff.1 hres).2 _ k hs
  · have hfail := assemble_of_unresolved hspells honce he limit
    obtain ⟨before, s, after, hsplit, -, hs⟩ := he
    have hmem : s ∈ ss := by simp [hsplit]
    cases hs with
    | pushed x k hn | target b x k hn => exact absurd (hdefined _ hmem x rfl) hn
    | far x k hx ha =>
      obtain ⟨line, -, hls⟩ := exists_related hof.flip _ hmem
      generalize hst : Statement.pushLabel x k = s at hls
      cases hls with
      | pushLabel l k' =>
        obtain ⟨rfl, -⟩ := Statement.pushLabel.inj hst
        rw [address_of hof l] at ha hfail
        exact .inr ⟨l, ha, hfail⟩
      | _ => cases hst

/-- **A code of fewer than 2³¹ instructions assembles to its instructions, if the limit allows.** -/
theorem assemble_text (h : code.WellFormed) (hs : code.size ≤ Text.maxInt32) (limit : Nat) :
    assemble code.text limit =
      if code.size ≤ limit then .ok code.link else .error (.codeTooLarge code.size limit) := by
  rcases h.assemble_eq limit with ⟨he, -⟩ | ⟨l, hlt, -⟩
  · exact he
  · have := code.address_le_size l
    omega

/-- What assembles is linked, fits the limit and pushes no address that is not a 32-bit integer. -/
theorem of_assemble (h : code.WellFormed) {limit : Nat} {instrs : List Instr}
    (ha : assemble code.text limit = .ok instrs) : instrs = code.link ∧ code.size ≤ limit ∧ code.Addressable := by
  rcases h.assemble_eq limit with ⟨he, hnear⟩ | ⟨l, -, he⟩
  · rw [ha] at he
    split at he
    · rename_i hs
      exact ⟨Except.ok.inj he, hs, hnear⟩
    · cases he
  · rw [ha] at he
    cases he

end Code.WellFormed

end FoolLang
