import FoolLang.Proofs.Words
/-!
# Statements — what an assembly text lists

A statement is the definition of a label or an instruction; the words of a text either spell statements from the first
to the last (`Spells`), or they do so up to a place where no statement can be read on, or where one would define a label
again (`Fault`).  Reading the words once collects the statements before that place (`collect_spells`, `collect_fault`),
and each text is of one kind or the other (`exists_reading`).
-/
namespace FoolLang
namespace Assembly

open Text

/-- A statement of a text; with the label that an instruction mentions comes the line of its mnemonic. -/
inductive Statement
  | define (x : Ident)
  | push (v : Int32)
  | pushLabel (x : Ident) (line : Nat)
  | branch (b : Branch) (x : Ident) (line : Nat)
  | op (o : Op)
  deriving DecidableEq

abbrev Listing := List Statement

namespace Statement

/-- The definition of a label is no instruction. -/
def isInstr : Statement → Bool
  | define _ => false
  | _ => true

def defines : Statement → Option Ident
  | define x => some x
  | _ => none

/-- The label that stands in an instruction. -/
def mentions : Statement → Option Ident
  | pushLabel x _ | branch _ x _ => some x
  | _ => none

/-- The instruction of a statement when labels stand for these addresses. -/
def instr? (address : Ident → Nat) : Statement → Option Instr
  | define _ => none
  | push v => some (.push v)
  | pushLabel x _ => some (.push (Int32.ofNat (address x)))
  | branch b x _ => some (.branch b (address x))
  | op o => some (.op o)

/-- What is kept of a statement while its label is still a name. -/
def unlinked? : Statement → Option Unlinked
  | define _ => none
  | push v => some (.push v.toInt)
  | pushLabel x line => some (.pushLabel x line)
  | branch b x line => some (.branch b x line)
  | op o => some (.op o)

/-- The words of one statement. -/
inductive Spelled : List WordAt → Statement → Prop
  | define (x : Ident) {t t' : List Char} {l l' : Nat} :
    Spelled [⟨some (.label x), t, l⟩, ⟨some .colon, t', l'⟩] (.define x)
  | push (v : Int32) {t t' : List Char} {l l' : Nat} :
    Spelled [⟨some .push, t, l⟩, ⟨some (.num v.toInt), t', l'⟩] (.push v)
  | pushLabel (x : Ident) {t t' : List Char} {l l' : Nat} :
    Spelled [⟨some .push, t, l⟩, ⟨some (.label x), t', l'⟩] (.pushLabel x l)
  | branch (b : Branch) (x : Ident) {t t' : List Char} {l l' : Nat} :
    Spelled [⟨some (.branch b), t, l⟩, ⟨some (.label x), t', l'⟩] (.branch b x l)
  | op (o : Op) {t : List Char} {l : Nat} : Spelled [⟨some (.op o), t, l⟩] (.op o)

theorem isSome_instr? (address : Ident → Nat) (s : Statement) : (s.instr? address).isSome = s.isInstr := by
  cases s <;> rfl

end Statement

/-- The words of statements, one after the other. -/
inductive Spells : List WordAt → Listing → Prop
  | nil : Spells [] []
  | cons {ws rest : List WordAt} {s : Statement} {ss : Listing} (head : s.Spelled ws) (tail : Spells rest ss) :
    Spells (ws ++ rest) (s :: ss)

theorem exists_word {ws : List WordAt} {w : Word} {rest : List (Option Word)}
    (h : ws.map WordAt.word = some w :: rest) :
    ∃ t line ws', ws = ⟨some w, t, line⟩ :: ws' ∧ ws'.map WordAt.word = rest := by
  cases ws with
  | nil => cases h
  | cons a ws =>
    obtain ⟨ha, hr⟩ := List.cons.inj h
    obtain ⟨w', t, line⟩ := a
    cases ha
    exact ⟨t, line, ws, rfl, hr⟩

theorem exists_words {ws : List WordAt} {w w' : Word} {rest : List (Option Word)}
    (h : ws.map WordAt.word = some w :: some w' :: rest) :
    ∃ t line t' line' after, ws = [⟨some w, t, line⟩, ⟨some w', t', line'⟩] ++ after ∧
      after.map WordAt.word = rest := by
  obtain ⟨t, line, ws, rfl, hws⟩ := exists_word h
  obtain ⟨t', line', after, rfl, hafter⟩ := exists_word hws
  exact ⟨t, line, t', line', after, rfl, hafter⟩

namespace Listing

/-- How many instructions there are. -/
def size (ss : Listing) : Nat := ss.countP Statement.isInstr

/-- The labels that are defined. -/
def definitions (ss : Listing) : List Ident := ss.filterMap Statement.defines

/-- How many instructions precede the definition of a label. -/
def address (ss : Listing) (x : Ident) : Nat := size (ss.takeWhile (· ≠ .define x))

/-- The instructions, each label replaced by its address. -/
def link (ss : Listing) : List Instr := ss.filterMap (Statement.instr? ss.address)

theorem address_le_size (ss : Listing) (x : Ident) : ss.address x ≤ ss.size :=
  (List.takeWhile_prefix _).sublist.countP_le

theorem size_cons (s : Statement) (ss : Listing) : size (s :: ss) = size [s] + size ss := by
  show size ([s] ++ ss) = _
  exact List.countP_append

theorem address_cons_self (x : Ident) (ss : Listing) : address (.define x :: ss) x = 0 := by simp [address, size]

theorem address_cons_ne {s : Statement} {x : Ident} (h : s ≠ .define x) (ss : Listing) :
    address (s :: ss) x = size [s] + address ss x := by
  rw [address, List.takeWhile_cons_of_pos (by simpa using h), size_cons]
  rfl

theorem length_link (ss : Listing) : ss.link.length = ss.size := by
  rw [link, List.length_filterMap_eq_countP, size]
  congr 1
  funext s
  exact s.isSome_instr? _

theorem mem_definitions {ss : Listing} {x : Ident} : x ∈ ss.definitions ↔ .define x ∈ ss := by
  rw [definitions, List.mem_filterMap]
  constructor
  · rintro ⟨s, hs, hx⟩
    cases s with
    | define y => rwa [← Option.some.inj hx]
    | _ => cases hx
  · exact fun h => ⟨_, h, rfl⟩

end Listing

/-! ## Faults -/

/-- Whether the next word is such a word. -/
def nextIs (p : Word → Bool) (ws : List WordAt) : Bool := ws.head?.any fun w => w.word.any p

def Word.isColon : Word → Bool
  | .colon => true
  | _ => false

def Word.isLabel : Word → Bool
  | .label _ => true
  | _ => false

/-- What can be pushed. -/
def Word.isOperand : Word → Bool
  | .num _ | .label _ => true
  | _ => false

/-- Words from which no statement can be read, or only the definition of a label that is defined already. -/
inductive Fault (defined : Ident → Prop) : List WordAt → AsmError → Prop
  | invalid (t : List Char) (l : Nat) {rest : List WordAt} :
    Fault defined (⟨none, t, l⟩ :: rest) (.invalidToken t l)
  | colon {t : List Char} (l : Nat) {rest : List WordAt} :
    Fault defined (⟨some .colon, t, l⟩ :: rest) (.unexpectedToken [':'] l)
  | number (v : Int) {t : List Char} (l : Nat) {rest : List WordAt} :
    Fault defined (⟨some (.num v), t, l⟩ :: rest) (.unexpectedToken (signedDecimal v) l)
  | nothingPushed {t : List Char} (l : Nat) {rest : List WordAt} (h : nextIs Word.isOperand rest = false) :
    Fault defined (⟨some .push, t, l⟩ :: rest) (.missingOperand Instr.pushMnemonic l)
  | noTarget (b : Branch) {t : List Char} (l : Nat) {rest : List WordAt} (h : nextIs Word.isLabel rest = false) :
    Fault defined (⟨some (.branch b), t, l⟩ :: rest) (.missingOperand b.mnemonic l)
  | noColon (x : Ident) {t : List Char} (l : Nat) {rest : List WordAt} (h : nextIs Word.isColon rest = false) :
    Fault defined (⟨some (.label x), t, l⟩ :: rest) (.unexpectedToken x.chars l)
  | definedAgain (x : Ident) {t t' : List Char} (l : Nat) {l' : Nat} {rest : List WordAt} (h : defined x) :
    Fault defined (⟨some (.label x), t, l⟩ :: ⟨some .colon, t', l'⟩ :: rest) (.duplicateLabel x l)

theorem Fault.imp {p q : Ident → Prop} (hpq : ∀ x, p x → q x) {ws : List WordAt} {e : AsmError} (h : Fault p ws e) :
    Fault q ws e := by
  cases h with
  | invalid t l => exact .invalid t l
  | colon l => exact .colon l
  | number v l => exact .number v l
  | nothingPushed l h => exact .nothingPushed l h
  | noTarget b l h => exact .noTarget b l h
  | noColon x l h => exact .noColon x l h
  | definedAgain x l h => exact .definedAgain x l (hpq x h)

/-! ## Reading statements -/

/-- The labels known after these statements, the first of them after `n` instructions. -/
def Labels.after (labels : Labels) (n : Nat) : Listing → Labels
  | [] => labels
  | .define x :: ss => Labels.after (labels.define x n) n ss
  | _ :: ss => Labels.after labels (n + 1) ss

/-- These statements define each label once, and none that is defined already. -/
structure Listing.Fresh (labels : Labels) (ss : Listing) : Prop where
  once : ss.definitions.Nodup
  new : ∀ x ∈ ss.definitions, labels.find? x = none

theorem Listing.fresh_empty {ss : Listing} (h : ss.definitions.Nodup) : ss.Fresh .empty :=
  ⟨h, fun x _ => Labels.find?_empty x⟩

theorem Listing.fresh_define {labels : Labels} {n : Nat} {x : Ident} {ss : Listing} :
    Listing.Fresh labels (.define x :: ss) ↔ labels.find? x = none ∧ ss.Fresh (labels.define x n) := by
  constructor
  · rintro ⟨honce, hnew⟩
    obtain ⟨hx, honce⟩ := List.nodup_cons.1 honce
    refine ⟨hnew x List.mem_cons_self, honce, fun y hy => ?_⟩
    rw [Labels.find?_define, if_neg (by rintro rfl; exact hx hy)]
    exact hnew y (List.mem_cons_of_mem _ hy)
  · rintro ⟨hx, honce, hnew⟩
    have hne : ∀ y ∈ ss.definitions, x ≠ y := by
      rintro y hy rfl
      have hnone := hnew x hy
      rw [Labels.find?_define, if_pos rfl] at hnone
      cases hnone
    refine ⟨List.nodup_cons.2 ⟨fun hm => hne x hm rfl, honce⟩, fun y hy => ?_⟩
    rcases List.mem_cons.1 hy with rfl | hy
    · exact hx
    · have hnone := hnew y hy
      rwa [Labels.find?_define, if_neg (hne y hy)] at hnone

theorem Listing.fresh_instr {labels : Labels} {s : Statement} {ss : Listing} (hs : s.isInstr = true) :
    Listing.Fresh labels (s :: ss) ↔ ss.Fresh labels := by
  have hsame : Listing.definitions (s :: ss) = ss.definitions := by
    cases s with
    | define => cases hs
    | _ => rfl
  constructor
  · rintro ⟨honce, hnew⟩
    rw [hsame] at honce hnew
    exact ⟨honce, hnew⟩
  · rintro ⟨honce, hnew⟩
    rw [← hsame] at honce hnew
    exact ⟨honce, hnew⟩

theorem Labels.after_cons (labels : Labels) (n : Nat) (s : Statement) (ss : Listing) :
    labels.after n (s :: ss) = (labels.after n [s]).after (n + Listing.size [s]) ss := by
  cases s <;> rfl

theorem Listing.fresh_cons {labels : Labels} {n : Nat} {s : Statement} {ss : Listing} :
    Listing.Fresh labels (s :: ss) ↔ Listing.Fresh labels [s] ∧ ss.Fresh (labels.after n [s]) := by
  have hnil : ∀ ls, Listing.Fresh ls [] := fun _ => ⟨List.nodup_nil, nofun⟩
  cases s with
  | define x => exact fresh_define.trans (and_congr_left' ((fresh_define (n := n)).trans (and_iff_left (hnil _))).symm)
  | push | pushLabel | branch | op =>
    exact (fresh_instr rfl).trans (and_iff_right ((fresh_instr rfl).2 (hnil labels))).symm

/-- **A label stands for the instructions before its definition.** -/
theorem Labels.find?_after : ∀ {ss : Listing} {labels : Labels} {n : Nat}, ss.Fresh labels → ∀ x,
    (labels.after n ss).find? x = if .define x ∈ ss then some (n + Listing.address ss x) else labels.find? x
  | [], _, _, _, _ => rfl
  | s :: ss, labels, n, h, x => by
    obtain ⟨-, hss⟩ := (Listing.fresh_cons (n := n)).1 h
    rw [Labels.after_cons labels n s ss, find?_after hss x]
    by_cases hx : s = .define x
    · subst hx
      have hnot : .define x ∉ ss := fun hm => (List.nodup_cons.1 h.once).1 (Listing.mem_definitions.2 hm)
      rw [if_neg hnot, if_pos List.mem_cons_self, Listing.address_cons_self]
      exact (find?_define labels x x n).trans (if_pos rfl)
    · have hmem : .define x ∈ s :: ss ↔ .define x ∈ ss := by rw [List.mem_cons, or_iff_right (Ne.symm hx)]
      have hsame : (labels.after n [s]).find? x = labels.find? x := by
        cases s with
        | define y => exact (find?_define labels y x n).trans (if_neg fun he => hx (congrArg _ he))
        | _ => rfl
      simp only [hmem, hsame, Listing.address_cons_ne hx, Nat.add_assoc]

/-- What is read after some instructions. -/
def prepend (us : List Unlinked) (r : Except AsmError (List Unlinked × Labels)) :
    Except AsmError (List Unlinked × Labels) :=
  r.map fun p => (us ++ p.1, p.2)

theorem prepend_nil (r : Except AsmError (List Unlinked × Labels)) : prepend [] r = r := by cases r <;> rfl

theorem prepend_prepend (us vs : List Unlinked) (r : Except AsmError (List Unlinked × Labels)) :
    prepend us (prepend vs r) = prepend (us ++ vs) r := by
  cases r with
  | error e => rfl
  | ok p => simp [prepend, Except.map]

theorem collect_spelled {labels : Labels} {n : Nat} {ws rest : List WordAt} {s : Statement} (hs : s.Spelled ws)
    (hnew : Listing.Fresh labels [s]) : collect labels n (ws ++ rest) =
      prepend s.unlinked?.toList (collect (labels.after n [s]) (n + Listing.size [s]) rest) := by
  cases hs with
  | define x =>
    have hnone := hnew.new x List.mem_cons_self
    simp only [List.cons_append, List.nil_append, collect, hnone, Option.isSome_none, Bool.false_eq_true, if_false]
    exact (prepend_nil _).symm
  | push v => rfl
  | pushLabel x => rfl
  | branch b x => rfl
  | op o => rfl

/-- **Reading statements collects their instructions and notes their labels**, whatever words come after them. -/
theorem collect_spells {ws : List WordAt} {ss : Listing} (h : Spells ws ss) : ∀ {labels : Labels} {n : Nat}
    {rest : List WordAt}, ss.Fresh labels → collect labels n (ws ++ rest) =
      prepend (ss.filterMap Statement.unlinked?) (collect (labels.after n ss) (n + ss.size) rest) := by
  induction h with
  | nil => exact fun _ => (prepend_nil _).symm
  | @cons ws more s ss head tail ih =>
    intro labels n rest hfresh
    obtain ⟨hs, hss⟩ := (Listing.fresh_cons (n := n)).1 hfresh
    have hmap : (s :: ss).filterMap Statement.unlinked? = s.unlinked?.toList ++ ss.filterMap Statement.unlinked? := by
      cases s <;> rfl
    rw [List.append_assoc, collect_spelled head hs, ih hss, prepend_prepend, hmap, Listing.size_cons s ss,
      Labels.after_cons labels n s ss, Nat.add_assoc]

/-- **Reading stops at a fault with its error.** -/
theorem collect_fault {defined : Ident → Prop} {ws : List WordAt} {e : AsmError} (h : Fault defined ws e)
    {labels : Labels} (hd : ∀ x, defined x → (labels.find? x).isSome) (n : Nat) : collect labels n ws = .error e := by
  cases h with
  | invalid | colon | number => rfl
  | @nothingPushed _ _ rest hnext | @noTarget _ _ _ rest hnext | @noColon _ _ _ rest hnext =>
    rcases rest with _ | ⟨⟨_ | w, _, _⟩, _⟩
    · rfl
    · rfl
    · cases w <;> first | rfl | cases hnext
  | definedAgain x l hx => simp only [collect, hd x hx, if_true]

/-! ## Every text is read -/

/-- The numbers among these words are 32-bit integers. -/
def NumbersFit (ws : List WordAt) : Prop := ∀ w ∈ ws, ∀ n, w.word = some (.num n) → FitsWord n

theorem NumbersFit.tail {w : WordAt} {ws : List WordAt} (h : NumbersFit (w :: ws)) : NumbersFit ws :=
  fun v hv => h v (List.mem_cons_of_mem _ hv)

theorem exists_toInt_eq {n : Int} (h : FitsWord n) : ∃ v : Int32, v.toInt = n := by
  unfold FitsWord maxInt32 at h
  exact ⟨Int32.ofInt n, Int32.toInt_ofInt_of_le (by omega) (by omega)⟩

/-- These words spell statements up to a place where they end or are at fault. -/
def Read (labels : Labels) (ws : List WordAt) : Prop :=
  ∃ before rest ss, ws = before ++ rest ∧ Spells before ss ∧ ss.Fresh labels ∧
    (rest = [] ∨ ∃ e, Fault (fun x => (labels.find? x).isSome ∨ .define x ∈ ss) rest e)

theorem Read.fault {labels : Labels} {ws : List WordAt} {e : AsmError}
    (h : Fault (fun x => (labels.find? x).isSome ∨ .define x ∈ ([] : Listing)) ws e) : Read labels ws :=
  ⟨[], ws, [], rfl, .nil, ⟨List.nodup_nil, nofun⟩, .inr ⟨e, h⟩⟩

theorem Read.instr {labels : Labels} {ws more : List WordAt} {s : Statement} (hs : s.Spelled ws)
    (hi : s.isInstr = true) (h : Read labels more) : Read labels (ws ++ more) := by
  obtain ⟨before, rest, ss, rfl, hspells, hfresh, hend⟩ := h
  refine ⟨ws ++ before, rest, s :: ss, (List.append_assoc _ _ _).symm, .cons hs hspells,
    (Listing.fresh_instr hi).2 hfresh, hend.imp_right ?_⟩
  rintro ⟨e, he⟩
  exact ⟨e, he.imp fun x hx => hx.imp_right (List.mem_cons_of_mem _)⟩

theorem Read.define {labels : Labels} {n : Nat} {ws more : List WordAt} {x : Ident}
    (hs : (Statement.define x).Spelled ws) (hx : labels.find? x = none) (h : Read (labels.define x n) more) :
    Read labels (ws ++ more) := by
  obtain ⟨before, rest, ss, rfl, hspells, hfresh, hend⟩ := h
  refine ⟨ws ++ before, rest, .define x :: ss, (List.append_assoc _ _ _).symm, .cons hs hspells,
    Listing.fresh_define.2 ⟨hx, hfresh⟩, hend.imp_right ?_⟩
  rintro ⟨e, he⟩
  refine ⟨e, he.imp fun y hy => ?_⟩
  rw [Labels.find?_define] at hy
  by_cases hxy : x = y
  · exact .inr (hxy ▸ List.mem_cons_self)
  · rw [if_neg hxy] at hy
    exact hy.imp_right (List.mem_cons_of_mem _)

theorem nextIs_eq_false {p : Word → Bool} {ws : List WordAt}
    (h : ∀ w t l more, p w = true → ws ≠ ⟨some w, t, l⟩ :: more) : nextIs p ws = false := by
  rcases ws with _ | ⟨⟨_ | w, t, l⟩, more⟩
  · rfl
  · rfl
  · exact Bool.eq_false_iff.2 fun hw => h w t l more hw rfl

/-- **All words are read to their end or to a fault.**  The cases are those of reading. -/
theorem exists_reading (labels : Labels) (n : Nat) (ws : List WordAt) (hfit : NumbersFit ws) : Read labels ws := by
  fun_induction collect labels n ws with
  | case1 labels => exact ⟨[], [], [], rfl, .nil, ⟨List.nodup_nil, nofun⟩, .inl rfl⟩
  | case2 labels n w ws hw =>
    obtain ⟨_, t, l⟩ := w
    cases hw
    exact .fault (.invalid t l)
  | case3 labels n w ws hw =>
    obtain ⟨_, t, l⟩ := w
    cases hw
    exact .fault (.colon l)
  | case4 labels n w ws v hw =>
    obtain ⟨_, t, l⟩ := w
    cases hw
    exact .fault (.number v l)
  | case5 labels n w ws o hw ih =>
    obtain ⟨_, t, l⟩ := w
    cases hw
    exact .instr (.op o) rfl (ih hfit.tail)
  | case6 labels n w hw v t' l' ws ih =>
    obtain ⟨_, t, l⟩ := w
    cases hw
    obtain ⟨v, rfl⟩ := exists_toInt_eq (hfit.tail _ List.mem_cons_self v rfl)
    exact .instr (.push v) rfl (ih hfit.tail.tail)
  | case7 labels n w hw x t' l' ws ih =>
    obtain ⟨_, t, l⟩ := w
    cases hw
    exact .instr (.pushLabel x) rfl (ih hfit.tail.tail)
  | case8 labels n w ws hw hnum hlabel =>
    obtain ⟨_, t, l⟩ := w
    cases hw
    refine .fault (.nothingPushed l (nextIs_eq_false fun w t' l' more hp he => ?_))
    cases w with
    | num v => exact hnum v t' l' more he
    | label x => exact hlabel x t' l' more he
    | _ => cases hp
  | case9 labels n w b hw x t' l' ws ih =>
    obtain ⟨_, t, l⟩ := w
    cases hw
    exact .instr (.branch b x) rfl (ih hfit.tail.tail)
  | case10 labels n w ws b hw hlabel =>
    obtain ⟨_, t, l⟩ := w
    cases hw
    refine .fault (.noTarget b l (nextIs_eq_false fun w t' l' more hp he => ?_))
    cases w with
    | label x => exact hlabel x t' l' more he
    | _ => cases hp
  | case11 labels n w x hw t' l' ws hx =>
    obtain ⟨_, t, l⟩ := w
    cases hw
    exact .fault (.definedAgain x l (.inl hx))
  | case12 labels n w x hw t' l' ws hx ih =>
    obtain ⟨_, t, l⟩ := w
    cases hw
    exact .define (n := n) (.define x) (Option.not_isSome_iff_eq_none.1 hx) (ih hfit.tail.tail)
  | case13 labels n w ws x hw hcolon =>
    obtain ⟨_, t, l⟩ := w
    cases hw
    refine .fault (.noColon x l (nextIs_eq_false fun w t' l' more hp he => ?_))
    cases w with
    | colon => exact hcolon t' l' more he
    | _ => cases hp

/-! ## The numbers of a text -/

theorem ofName_ne_num (w : List Char) (n : Int) : Word.ofName w ≠ .num n := by
  unfold Word.ofName
  split
  · exact nofun
  · split
    · exact nofun
    · split <;> exact nofun

theorem fits_of_ofInt? {m n : Int} (h : Word.ofInt? m = some (.num n)) : FitsWord n := by
  unfold Word.ofInt? at h
  split at h
  · cases h
    assumption
  · cases h

theorem fits_of_bite {c : Char} {cs text rest : List Char} {w : Option Word} {n : Int}
    (h : bite c cs = .take w text rest) (hw : w = some (.num n)) : FitsWord n := by
  subst hw
  unfold bite at h
  split at h
  · cases h
  · cases h
  · unfold biteWord at h
    split at h
    · exact absurd (Option.some.inj (Bite.take.inj h).1) (ofName_ne_num _ n)
    · split at h
      · cases h
      · split at h
        · split at h
          · exact fits_of_ofInt? (Bite.take.inj h).1
          · cases h
        · split at h
          · exact fits_of_ofInt? (Bite.take.inj h).1
          · cases h

theorem numbersFit_scanFrom (fuel line : Nat) (cs : List Char) : NumbersFit (scanFrom fuel line cs) := by
  fun_induction scanFrom fuel line cs with
  | case1 | case2 => exact nofun
  | case3 fuel line c cs text rest hb ih => exact ih
  | case4 fuel line c cs w text rest hb ih =>
    intro v hv n hn
    rcases List.mem_cons.1 hv with rfl | hv
    · exact fits_of_bite hb hn
    · exact ih v hv n hn

theorem numbersFit_scan (text : List Char) : NumbersFit (scan text) := numbersFit_scanFrom _ _ _

end Assembly
end FoolLang
