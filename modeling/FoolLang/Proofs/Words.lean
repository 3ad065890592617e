import FoolLang.Assembly.Assemble
import FoolLang.Code
/-!
# Words — code read back from its text

The words of a line are known from the line, and cutting the text of a code into words gives those of its lines, in
order (`reads_text`).  A label is never taken for a mnemonic, since it is longer than all of them, and a number that
fits 32 bits is read back as itself.
-/
namespace FoolLang

namespace Text

theorem isDigit_of_mem_decimal {n : Nat} {c : Char} (h : c ∈ decimal n) : c.isDigit = true :=
  Nat.isDigit_of_mem_toDigits (by decide) (by decide) h

theorem decimal_ne_nil (n : Nat) : decimal n ≠ [] := Nat.toDigits_ne_nil

theorem ofDecimal_decimal (n : Nat) : ofDecimal (decimal n) = n := Nat.ofDigitChars_ten_toDigits

theorem decimal_inj {m n : Nat} (h : decimal m = decimal n) : m = n := by
  rw [← ofDecimal_decimal m, h, ofDecimal_decimal]

theorem newline_notMem_decimal (n : Nat) : '\n' ∉ decimal n := fun h => by cases isDigit_of_mem_decimal h

theorem newline_notMem_signedDecimal : ∀ n : Int, '\n' ∉ signedDecimal n
  | .ofNat n => newline_notMem_decimal n
  | .negSucc n => fun h => newline_notMem_decimal (n + 1) ((List.mem_cons.1 h).resolve_left (by decide))

theorem decimal_ne_minus (n : Nat) (cs : List Char) : decimal n ≠ '-' :: cs := fun h => by
  have hminus : '-' ∈ decimal n := h ▸ List.mem_cons_self
  cases isDigit_of_mem_decimal hminus

theorem signedDecimal_inj : ∀ {m n : Int}, signedDecimal m = signedDecimal n → m = n
  | .ofNat _, .ofNat _, h => congrArg Int.ofNat (decimal_inj h)
  | .ofNat m, .negSucc _, h => absurd h (decimal_ne_minus m _)
  | .negSucc _, .ofNat n, h => absurd h.symm (decimal_ne_minus n _)
  | .negSucc _, .negSucc _, h => congrArg Int.negSucc (Nat.succ.inj (decimal_inj (List.cons.inj h).2))

theorem decimal_cons_zero : ∀ {n : Nat} {cs : List Char}, decimal n = '0' :: cs → cs = [] := by
  intro n
  induction n using Nat.strongRecOn with
  | ind n ih =>
    intro cs h
    unfold decimal at h
    rw [Nat.toDigits_eq_if (by decide)] at h
    split at h
    · exact (List.cons.inj h).2.symm
    · rename_i hn
      obtain ⟨d, ds, hd⟩ := List.exists_cons_of_ne_nil (decimal_ne_nil (n / 10))
      have hd' : Nat.toDigits 10 (n / 10) = d :: ds := hd
      rw [hd', List.cons_append, List.cons.injEq] at h
      obtain ⟨rfl, -⟩ := h
      have hnil := ih (n / 10) (by omega) hd
      subst hnil
      have hz : n / 10 = 0 := by rw [← ofDecimal_decimal (n / 10), hd]; rfl
      omega

end Text

/-- A label as assembly text names it. -/
def Label.ident (l : Label) : Ident := ⟨l.text⟩

theorem Label.ident_inj {l m : Label} (h : l.ident = m.ident) : l = m := by
  have ht : l.text = m.text := congrArg Ident.chars h
  cases l with
  | branch a =>
    cases m with
    | branch b => rw [Text.decimal_inj (List.append_cancel_left ht)]
    | routine b => cases (List.cons.inj ht).1
  | routine a =>
    cases m with
    | branch b => cases (List.cons.inj ht).1
    | routine b => rw [Text.decimal_inj (List.append_cancel_left ht)]

namespace Assembly

open Text

/-- A text that cuts into these words, all of them valid, whatever line it starts on. -/
def Reads (cs : List Char) (ws : List Word) : Prop :=
  ∀ fuel line, cs.length ≤ fuel → (scanFrom fuel line cs).map WordAt.word = ws.map some

theorem Reads.nil : Reads [] [] := fun fuel _ _ => by cases fuel <;> rfl

theorem Reads.take {c : Char} {cs : List Char} {w : Word} {ws : List Word} (text rest : List Char)
    (hb : bite c cs = .take (some w) text rest) (h : Reads rest ws) : Reads (c :: cs) (w :: ws) := by
  intro fuel line hf
  obtain ⟨hne, happ⟩ := bite_append c cs
  rw [hb] at hne happ
  have hlen : text.length + rest.length = cs.length + 1 := by simpa [Bite.parts] using congrArg List.length happ
  have hpos : 0 < text.length := List.length_pos_iff.2 hne
  cases fuel with
  | zero => simp at hf
  | succ fuel =>
    rw [scanFrom, hb]
    simp only [List.map_cons]
    rw [h fuel _ (by simp at hf; omega)]

theorem Reads.skip {c : Char} {cs : List Char} {ws : List Word} (text rest : List Char)
    (hb : bite c cs = .skip text rest) (h : Reads rest ws) : Reads (c :: cs) ws := by
  intro fuel line hf
  obtain ⟨hne, happ⟩ := bite_append c cs
  rw [hb] at hne happ
  have hlen : text.length + rest.length = cs.length + 1 := by simpa [Bite.parts] using congrArg List.length happ
  have hpos : 0 < text.length := List.length_pos_iff.2 hne
  cases fuel with
  | zero => simp at hf
  | succ fuel =>
    rw [scanFrom, hb]
    exact h fuel _ (by simp at hf; omega)

theorem bite_blank {c : Char} (hc : isBlank c = true) (cs : List Char) : bite c cs = .skip [c] cs := by
  have hs : c ≠ '/' := by rintro rfl; cases hc
  unfold bite trivia
  split <;> simp_all

theorem Reads.blank {c : Char} {cs : List Char} {ws : List Word} (hc : isBlank c = true) (h : Reads cs ws) :
    Reads (c :: cs) ws := Reads.skip [c] cs (bite_blank hc cs) h

theorem bite_of_plain {c : Char} {cs : List Char} (hs : c ≠ '/') (hb : isBlank c = false) :
    bite c cs = biteWord c cs := by
  unfold bite trivia
  split <;> simp_all

/-- A text in which a name or a number that ends here is not continued. -/
def Stops (rest : List Char) : Prop := ∀ c ∈ rest.head?, isNameChar c = false

theorem Stops.any_head {p : Char → Bool} {rest : List Char} (h : Stops rest)
    (hp : ∀ c, p c = true → isNameChar c = true) : rest.head?.any p = false := by
  cases rest with
  | nil => rfl
  | cons c rest =>
    refine Bool.eq_false_iff.2 fun hc => ?_
    have hn : isNameChar c = false := h c rfl
    rw [hp c hc] at hn
    cases hn

/-- A name is taken whole. -/
theorem bite_name (c : Char) (cs : List Char) {rest : List Char} (hc : isLetter c = true)
    (hcs : cs.all isNameChar = true) (hr : Stops rest) :
    bite c (cs ++ rest) = .take (some (.ofName (c :: cs))) (c :: cs) rest := by
  rw [List.all_eq_true] at hcs
  have hs : c ≠ '/' := by rintro rfl; cases hc
  have hb : isBlank c = false := isBlank_of_isNameChar (isNameChar_of_isLetter hc)
  obtain ⟨ht, hd⟩ := takeWhile_run hcs (hr.any_head fun _ => id)
  rw [bite_of_plain hs hb, biteWord, if_pos hc, ht, hd]

theorem Reads.name (c : Char) (cs : List Char) {rest : List Char} {ws : List Word} (hc : isLetter c = true)
    (hcs : cs.all isNameChar = true) (hr : Stops rest) (h : Reads rest ws) :
    Reads (c :: cs ++ rest) (Word.ofName (c :: cs) :: ws) := Reads.take (c :: cs) rest (bite_name c cs hc hcs hr) h

theorem digitsAt_decimal {n : Nat} {rest : List Char} (hr : Stops rest) :
    digitsAt (decimal n ++ rest) = some (decimal n, rest) := by
  obtain ⟨c, cs, hn⟩ := List.exists_cons_of_ne_nil (decimal_ne_nil n)
  have hc : c.isDigit = true := isDigit_of_mem_decimal (n := n) (hn ▸ List.mem_cons_self)
  have hcs : ∀ d ∈ cs, d.isDigit = true := fun d hd =>
    isDigit_of_mem_decimal (n := n) (hn ▸ List.mem_cons_of_mem _ hd)
  rw [hn, List.cons_append, digitsAt, if_pos hc]
  split
  · rename_i h0
    subst h0
    rw [decimal_cons_zero hn, List.nil_append]
  · obtain ⟨ht, hd⟩ := takeWhile_run hcs (hr.any_head fun _ => isNameChar_of_isDigit)
    rw [ht, hd]

/-- The numbers an operand can hold. -/
def FitsWord (n : Int) : Prop := -(maxInt32 : Int) - 1 ≤ n ∧ n ≤ maxInt32

instance (n : Int) : Decidable (FitsWord n) := inferInstanceAs (Decidable (_ ∧ _))

theorem fitsWord_toInt (v : Int32) : FitsWord v.toInt := by
  have hlo := Int32.le_toInt v
  have hhi := Int32.toInt_lt v
  unfold FitsWord maxInt32
  omega

theorem fitsWord_ofNat {n : Nat} (h : n ≤ maxInt32) : FitsWord n := ⟨by omega, by omega⟩

/-- A number is taken whole, be it a 32-bit integer or not. -/
theorem bite_number (n : Int) {rest : List Char} (hr : Stops rest) : ∃ c cs, signedDecimal n = c :: cs ∧
    bite c (cs ++ rest) = .take (Word.ofInt? n) (signedDecimal n) rest := by
  cases n with
  | ofNat n =>
    obtain ⟨c, cs, hd⟩ := List.exists_cons_of_ne_nil (decimal_ne_nil n)
    have hc : c.isDigit = true := isDigit_of_mem_decimal (n := n) (hd ▸ List.mem_cons_self)
    have hl : isLetter c = false := Bool.eq_false_iff.2 fun hl => by simp [isDigit_of_isLetter hl] at hc
    have hs : c ≠ '/' := by rintro rfl; cases hc
    have hm : c ≠ '-' := by rintro rfl; cases hc
    have hk : c ≠ ':' := by rintro rfl; cases hc
    have hb : isBlank c = false := isBlank_of_isNameChar (isNameChar_of_isDigit hc)
    have hda := digitsAt_decimal (n := n) hr
    rw [hd, List.cons_append] at hda
    refine ⟨c, cs, hd, ?_⟩
    rw [bite_of_plain hs hb, biteWord, if_neg (by simp [hl]), if_neg hk, if_neg hm, hda, ← hd]
    show Bite.take (Word.ofInt? (ofDecimal (decimal n))) (decimal n) rest = _
    rw [ofDecimal_decimal]
    rfl
  | negSucc n =>
    refine ⟨'-', decimal (n + 1), rfl, ?_⟩
    rw [bite_of_plain (by decide) (by decide), biteWord, if_neg (by decide), if_neg (by decide), if_pos rfl,
      digitsAt_decimal hr]
    show Bite.take (Word.ofInt? (-(ofDecimal (decimal (n + 1)) : Int))) ('-' :: decimal (n + 1)) rest = _
    rw [ofDecimal_decimal]
    rfl

/-- **A number that fits 32 bits is read back as itself.** -/
theorem Reads.number {n : Int} {rest : List Char} {ws : List Word} (hn : FitsWord n) (hr : Stops rest)
    (h : Reads rest ws) : Reads (signedDecimal n ++ rest) (.num n :: ws) := by
  obtain ⟨c, cs, hcs, hb⟩ := bite_number n hr
  rw [show Word.ofInt? n = some (.num n) from if_pos hn] at hb
  rw [hcs] at hb ⊢
  exact Reads.take (c :: cs) rest hb h

theorem bite_colon (cs : List Char) : bite ':' cs = .take (some .colon) [':'] cs := by
  rw [bite_of_plain (by decide) (by decide)]
  rfl

theorem Reads.colon {rest : List Char} {ws : List Word} (h : Reads rest ws) : Reads (':' :: rest) (.colon :: ws) :=
  Reads.take [':'] rest (bite_colon rest) h

theorem length_mnemonic_op (o : Op) : o.mnemonic.length < 6 := by cases o <;> decide

theorem length_mnemonic_branch (b : Branch) : b.mnemonic.length < 6 := by cases b <;> decide

theorem ofName_op (o : Op) : Word.ofName o.mnemonic = .op o := by cases o <;> decide

theorem ofName_branch (b : Branch) : Word.ofName b.mnemonic = .branch b := by cases b <;> decide

theorem ofName_push : Word.ofName Instr.pushMnemonic = .push := by decide

/-- **A name that is no mnemonic is a label.** -/
theorem ofName_of_free {w : List Char} (hp : Instr.pushMnemonic ≠ w) (hb : ∀ b : Branch, b.mnemonic ≠ w)
    (ho : ∀ o : Op, o.mnemonic ≠ w) : Word.ofName w = .label ⟨w⟩ := by
  have hnob : Branch.all.find? (fun b => decide (b.mnemonic = w)) = none :=
    List.find?_eq_none.2 fun b _ => by simpa using hb b
  have hnoo : Op.all.find? (fun o => decide (o.mnemonic = w)) = none :=
    List.find?_eq_none.2 fun o _ => by simpa using ho o
  rw [Word.ofName, if_neg hp.symm, hnob]
  simp only [hnoo]

theorem ofName_of_long {w : List Char} (h : 6 ≤ w.length) : Word.ofName w = .label ⟨w⟩ := by
  refine ofName_of_free ?_ (fun b => ?_) (fun o => ?_)
  · rintro rfl
    revert h
    decide
  · rintro rfl
    exact absurd h (Nat.not_le.2 (length_mnemonic_branch b))
  · rintro rfl
    exact absurd h (Nat.not_le.2 (length_mnemonic_op o))

/-- A name that is read as a label. -/
structure IsLabel (x : Ident) : Prop where
  name : ∃ c cs, x.chars = c :: cs ∧ isLetter c = true ∧ cs.all isNameChar = true
  free : Word.ofName x.chars = .label x

section

variable {rest : List Char} {ws : List Word}

theorem stops_cons {c : Char} (hc : isNameChar c = false) : Stops (c :: rest) := by
  rintro d ⟨⟩
  exact hc

theorem Reads.label {x : Ident} (hx : IsLabel x) (hr : Stops rest) (h : Reads rest ws) :
    Reads (x.chars ++ rest) (.label x :: ws) := by
  obtain ⟨c, cs, hchars, hc, hcs⟩ := hx.name
  rw [← hx.free, hchars]
  exact Reads.name c cs hc hcs hr h

theorem Reads.op (o : Op) (hr : Stops rest) (h : Reads rest ws) : Reads (o.mnemonic ++ rest) (.op o :: ws) := by
  obtain ⟨c, cs, ho, hc, hcs⟩ : ∃ c cs, o.mnemonic = c :: cs ∧ isLetter c = true ∧ cs.all isNameChar = true := by
    cases o <;> exact ⟨_, _, rfl, by decide, by decide⟩
  rw [← ofName_op o, ho]
  exact Reads.name c cs hc hcs hr h

theorem Reads.push (h : Reads rest ws) : Reads (Instr.pushMnemonic ++ ' ' :: rest) (.push :: ws) := by
  rw [← ofName_push]
  exact Reads.name 'p' "ush".toList (by decide) (by decide) (stops_cons (by decide)) (h.blank (by decide))

theorem Reads.branch (b : Branch) (h : Reads rest ws) : Reads (b.mnemonic ++ ' ' :: rest) (.branch b :: ws) := by
  have hstop : Stops (' ' :: rest) := stops_cons (by decide)
  rw [← ofName_branch b]
  cases b with
  | always => exact Reads.name 'b' [] (by decide) (by decide) hstop (h.blank (by decide))
  | ifEqual => exact Reads.name 'b' "eq".toList (by decide) (by decide) hstop (h.blank (by decide))
  | ifLessEq => exact Reads.name 'b' "leq".toList (by decide) (by decide) hstop (h.blank (by decide))

end

end Assembly

open Text Assembly

theorem Label.six_le_length : ∀ l : Label, 6 ≤ l.text.length
  | .branch n => by
    have hn : 0 < (decimal n).length := List.length_pos_iff.2 (decimal_ne_nil n)
    have ht : (Label.branch n).text.length = 5 + (decimal n).length := List.length_append
    omega
  | .routine n => by
    have ht : (Label.routine n).text.length = 8 + (decimal n).length := List.length_append
    omega

theorem all_append_decimal {cs : List Char} (h : cs.all isNameChar = true) (n : Nat) :
    (cs ++ decimal n).all isNameChar = true := by
  rw [List.all_append, h, Bool.true_and, List.all_eq_true]
  exact fun d hd => isNameChar_of_isDigit (isDigit_of_mem_decimal hd)

theorem Label.isLabel (l : Label) : IsLabel l.ident where
  name := by
    cases l with
    | branch n => exact ⟨'l', "abel".toList ++ Text.decimal n, rfl, by decide, all_append_decimal (by decide) n⟩
    | routine n => exact ⟨'f', "unction".toList ++ Text.decimal n, rfl, by decide, all_append_decimal (by decide) n⟩
  free := ofName_of_long l.six_le_length

def Line.words : Line → List Word
  | .define l => [.label l.ident, .colon]
  | .push n => [.push, .num n]
  | .pushLabel l => [.push, .label l.ident]
  | .branch b l => [.branch b, .label l.ident]
  | .op o => [.op o]

/-- Whether the operand of a line, if it is a number, fits 32 bits. -/
def Line.Fits : Line → Prop
  | .push n => FitsWord n
  | _ => True

theorem Line.reads {l : Line} (hl : l.Fits) {rest : List Char} {ws : List Word} (h : Reads rest ws) :
    Reads (l.text ++ '\n' :: rest) (l.words ++ ws) := by
  have hnl : Reads ('\n' :: rest) ws := h.blank (by decide)
  have hstop : Stops ('\n' :: rest) := stops_cons (by decide)
  cases l with
  | define l =>
    have ht : (Line.define l).text ++ '\n' :: rest = l.text ++ ':' :: '\n' :: rest := List.append_assoc _ _ _
    rw [ht]
    exact hnl.colon.label l.isLabel (stops_cons (by decide))
  | push n => exact (hnl.number hl hstop).push
  | pushLabel l => exact (hnl.label l.isLabel hstop).push
  | branch b l =>
    have ht : (Line.branch b l).text ++ '\n' :: rest = b.mnemonic ++ ' ' :: (l.text ++ '\n' :: rest) :=
      List.append_assoc _ _ _
    rw [ht]
    exact (hnl.label l.isLabel hstop).branch b
  | op o => exact hnl.op o hstop

/-- **The text of a code is cut into the words of its lines.** -/
theorem reads_text : ∀ {code : Code}, (∀ l ∈ code, l.Fits) → Reads code.text (code.flatMap Line.words)
  | [], _ => Reads.nil
  | l :: code, h => by
    have ih := reads_text fun m hm => h m (List.mem_cons_of_mem _ hm)
    have := (h l List.mem_cons_self : l.Fits)
    simpa [Code.text, List.append_assoc] using Line.reads this ih

end FoolLang
