import FoolLang.Proofs.Rebites
import Mathlib.Data.List.Basic
/-!
# Munches — the longest match at the head of a text

A rule matches certain texts: the spelling of a mark, numbers, names, and for what is skipped blanks, the comment of a
line and the opening of a longer comment.  Of all matches at the head of a text the longest one counts, and a reserved
word is no name; a comment that was opened goes on to the first `*/`, and where no rule matches, a single character is
no token (`Munch`).  What is bitten off is what a text begins with in this sense (`munch_bite`), and there is only one
such thing (`bite_of_munch`).
-/
namespace FoolLang

open Text

namespace Token

/-! ## Rules -/

/-- A zero alone, or digits of which the first is no zero. -/
def IsNumber (w : List Char) : Prop :=
  w = ['0'] ∨ ∃ c cs, w = c :: cs ∧ c ≠ '0' ∧ c.isDigit = true ∧ ∀ d ∈ cs, d.isDigit = true

/-- A letter, then letters and digits. -/
def IsName (w : List Char) : Prop := ∃ c cs, w = c :: cs ∧ isLetter c = true ∧ ∀ d ∈ cs, isNameChar d = true

/-- What a text can be matched as. -/
inductive Rule
  | mark (m : Mark)
  | number
  | name
  | blanks
  | lineComment
  | opening

/-- The texts that a rule matches. -/
def Rule.Matches : Rule → List Char → Prop
  | .mark m, w => w = m.spelling
  | .number, w => IsNumber w
  | .name, w => IsName w
  | .blanks, w => w ≠ [] ∧ ∀ c ∈ w, isBlank c = true
  | .lineComment, w => ∃ body, w = '/' :: '/' :: body ∧ '\n' ∉ body
  | .opening, w => w = ['/', '*']

/-- No rule matches more of a text than `w`, which `rest` comes after. -/
def Longest (w rest : List Char) : Prop := ∀ r v, Rule.Matches r v → v <+: w ++ rest → v.length ≤ w.length

/-- What a text is that the rule of a token matches.  A reserved word is no name, and a number has to fit. -/
inductive Denotes : LexemeKind → List Char → Prop
  | mark (m : Mark) : Denotes (.token (.mark m)) m.spelling
  | number {w : List Char} (hw : IsNumber w) (hfit : ofDecimal w ≤ maxInt32) : Denotes (.token (.num (ofDecimal w))) w
  | tooLarge {w : List Char} (hw : IsNumber w) (hlarge : maxInt32 < ofDecimal w) : Denotes .invalid w
  | name {w : List Char} (hw : IsName w) (hfree : ∀ m ∈ Mark.words, m.spelling ≠ w) : Denotes (.token (.id ⟨w⟩)) w

/-- What a text begins with, and of which kind it is; none is the kind of what is skipped. -/
inductive Munch (rest : List Char) : Option LexemeKind → List Char → Prop
  | token {k : LexemeKind} {w : List Char} (hw : Denotes k w) (hlong : Longest w rest) : Munch rest (some k) w
  | blank {c : Char} (hc : isBlank c = true) : Munch rest none [c]
  | lineComment {body : List Char} (hbody : '\n' ∉ body) (hrest : ∀ c ∈ rest.head?, c = '\n') :
    Munch rest none ('/' :: '/' :: body)
  | comment {body : List Char} (hbody : ¬ ['*', '/'] <:+: body) : Munch rest none ('/' :: '*' :: (body ++ ['*', '/']))
  | unclosed {body : List Char} (hbody : ¬ ['*', '/'] <:+: body) (hrest : rest = []) :
    Munch rest (some .invalid) ('/' :: '*' :: body)
  | stray {c : Char} (hnone : ∀ r v, Rule.Matches r v → ¬ v <+: c :: rest) : Munch rest (some .invalid) [c]

/-! ## Marks -/

theorem mem_signs_or_words (m : Mark) : m ∈ Mark.signs ∨ m ∈ Mark.words := by cases m <;> decide

theorem isName_word {m : Mark} (h : m ∈ Mark.words) : IsName m.spelling := by
  have hall : ∀ m ∈ Mark.words, m.spelling.head?.any isLetter = true ∧ m.spelling.tail.all isNameChar = true := by
    decide
  obtain ⟨hhead, htail⟩ := hall m h
  cases hs : m.spelling with
  | nil => exact (spelling_ne_nil m hs).elim
  | cons c cs =>
    rw [hs] at hhead htail
    exact ⟨c, cs, rfl, by simpa using hhead, List.all_eq_true.1 htail⟩

/-- No sign begins like a name, a number or a blank. -/
theorem head_sign {m : Mark} (h : m ∈ Mark.signs) {c : Char} {cs : List Char} (hs : m.spelling = c :: cs) :
    isLetter c = false ∧ c.isDigit = false ∧ isBlank c = false ∧ (c = '/' → cs = []) := by
  have hall : ∀ m ∈ Mark.signs, m.spelling.head?.all (fun c => !isLetter c && !c.isDigit && !isBlank c &&
      (c != '/' || m.spelling.tail.isEmpty)) = true := by decide
  have := hall m h
  simp only [hs, List.head?_cons, Option.all_some, List.tail_cons, Bool.and_eq_true, Bool.not_eq_true',
    Bool.or_eq_true, bne_iff_ne, ne_eq, List.isEmpty_iff] at this
  tauto

/-- What a match of a rule looks like, told from its first character. -/
theorem Rule.Matches.shape {r : Rule} {c : Char} {cs : List Char} (h : r.Matches (c :: cs)) :
    IsName (c :: cs) ∨ IsNumber (c :: cs) ∨ isBlank c = true ∨
      c = '/' ∧ (cs.head?.any (· = '/') = true ∨ cs.head?.any (· = '*') = true) ∨
      ∃ m ∈ Mark.signs, m.spelling = c :: cs := by
  cases r with
  | mark m =>
    have hm : c :: cs = m.spelling := h
    rcases mem_signs_or_words m with hs | hw
    · exact .inr (.inr (.inr (.inr ⟨m, hs, hm.symm⟩)))
    · exact .inl (hm ▸ isName_word hw)
  | number => exact .inr (.inl h)
  | name => exact .inl h
  | blanks => exact .inr (.inr (.inl (h.2 c List.mem_cons_self)))
  | lineComment =>
    obtain ⟨body, hbody, -⟩ := h
    cases hbody
    exact .inr (.inr (.inr (.inl ⟨rfl, .inl rfl⟩)))
  | opening =>
    cases (show c :: cs = ['/', '*'] from h)
    exact .inr (.inr (.inr (.inl ⟨rfl, .inr rfl⟩)))

/-! ## Longest matches -/

theorem isNumber_cons {c : Char} {cs : List Char} : IsNumber (c :: cs) ↔
    c = '0' ∧ cs = [] ∨ c ≠ '0' ∧ c.isDigit = true ∧ ∀ d ∈ cs, d.isDigit = true := by
  simp [IsNumber]

theorem isName_cons {c : Char} {cs : List Char} :
    IsName (c :: cs) ↔ isLetter c = true ∧ ∀ d ∈ cs, isNameChar d = true := by
  simp [IsName]

/-- A match is not empty. -/
theorem Rule.Matches.ne_nil {r : Rule} {w : List Char} (h : r.Matches w) : w ≠ [] := by
  rintro rfl
  cases r with
  | mark m => exact spelling_ne_nil m (show [] = m.spelling from h).symm
  | number | name => simp [Matches, IsNumber, IsName] at h
  | blanks => exact h.1 rfl
  | lineComment => simp [Matches] at h
  | opening => cases (show [] = ['/', '*'] from h)

/-- A run that begins a text is no longer than the longest one. -/
theorem length_le_takeWhile {p : Char → Bool} {a cs : List Char} (ha : ∀ c ∈ a, p c = true) (h : a <+: cs) :
    a.length ≤ (cs.takeWhile p).length := by
  obtain ⟨rest, rfl⟩ := h
  rw [List.takeWhile_append_of_pos ha, List.length_append]
  exact Nat.le_add_right _ _

/-- For the longest match it is enough to know how matches with the same first character go on. -/
theorem longest_cons (c : Char) (cs : List Char) {w rest : List Char} (hw : w ++ rest = c :: cs)
    (h : ∀ r vs, Rule.Matches r (c :: vs) → vs <+: cs → vs.length + 1 ≤ w.length) : Longest w rest := by
  intro r v hv hpre
  cases v with
  | nil => exact Nat.zero_le _
  | cons d vs =>
    rw [hw] at hpre
    obtain ⟨rfl, hvs⟩ := List.cons_prefix_cons.1 hpre
    exact h r vs hv hvs

section

variable {c : Char} {cs : List Char}

theorem longest_name (hc : isLetter c = true) : Longest (c :: cs.takeWhile isNameChar) (cs.dropWhile isNameChar) := by
  refine longest_cons c cs (by simp) fun r vs hv hvs => Nat.succ_le_succ ?_
  rcases hv.shape with hname | hnum | hblank | ⟨rfl, -⟩ | ⟨m, hm, hs⟩
  · exact length_le_takeWhile (isName_cons.1 hname).2 hvs
  · rcases isNumber_cons.1 hnum with ⟨rfl, -⟩ | ⟨-, hd, -⟩
    · cases hc
    · rw [isDigit_of_isLetter hc] at hd
      cases hd
  · rw [isBlank_of_isNameChar (isNameChar_of_isLetter hc)] at hblank
    cases hblank
  · cases hc
  · rw [(head_sign hm hs).1] at hc
    cases hc

/-- A match that begins with a digit is a number. -/
theorem isNumber_of_digit {r : Rule} {vs : List Char} (hc : c.isDigit = true) (hv : r.Matches (c :: vs)) :
    IsNumber (c :: vs) := by
  rcases hv.shape with hname | hnum | hblank | ⟨rfl, -⟩ | ⟨m, hm, hs⟩
  · rw [isDigit_of_isLetter (isName_cons.1 hname).1] at hc
    cases hc
  · exact hnum
  · rw [isBlank_of_isNameChar (isNameChar_of_isDigit hc)] at hblank
    cases hblank
  · cases hc
  · rw [(head_sign hm hs).2.1] at hc
    cases hc

theorem longest_zero : Longest ['0'] cs := by
  refine longest_cons _ cs rfl fun r vs hv _ => ?_
  rcases isNumber_cons.1 (isNumber_of_digit (by decide) hv) with ⟨-, rfl⟩ | ⟨hne, -⟩
  · exact Nat.le_refl _
  · exact absurd rfl hne

theorem longest_number (h0 : c ≠ '0') (hc : c.isDigit = true) :
    Longest (c :: cs.takeWhile Char.isDigit) (cs.dropWhile Char.isDigit) := by
  refine longest_cons c cs (by simp) fun r vs hv hvs => Nat.succ_le_succ ?_
  rcases isNumber_cons.1 (isNumber_of_digit hc hv) with ⟨he, -⟩ | ⟨-, -, hdigits⟩
  · exact absurd he h0
  · exact length_le_takeWhile hdigits hvs

/-- What is neither a name nor a number nor skipped can only match a sign. -/
theorem exists_sign {r : Rule} {vs : List Char} (hl : isLetter c = false) (hd : c.isDigit = false)
    (hb : isBlank c = false) (hplain : c = '/' → cs.head?.any (· = '/') = false ∧ cs.head?.any (· = '*') = false)
    (hv : r.Matches (c :: vs)) (hvs : vs <+: cs) : ∃ m ∈ Mark.signs, m.spelling = c :: vs := by
  rcases hv.shape with hname | hnum | hblank | ⟨rfl, hcomment⟩ | hsign
  · simp [(isName_cons.1 hname).1] at hl
  · rcases isNumber_cons.1 hnum with ⟨rfl, -⟩ | ⟨-, hdigit, -⟩
    · cases hd
    · simp [hdigit] at hd
  · simp [hblank] at hb
  · obtain ⟨rest, rfl⟩ := hvs
    obtain ⟨h₁, h₂⟩ := hplain rfl
    cases vs with
    | nil => simp at hcomment
    | cons d vs => simp_all
  · exact hsign

/-- Signs are listed the longer ones first. -/
theorem pairwise_signs : Mark.signs.Pairwise fun m m' => m'.spelling.length ≤ m.spelling.length := by decide

theorem length_le_of_signAt {text : List Char} {m m' : Mark} (h : signAt text = some m) (hm : m' ∈ Mark.signs)
    (hpre : m'.spelling <+: text) : m'.spelling.length ≤ m.spelling.length := by
  obtain ⟨-, before, after, hsplit, hbefore⟩ := List.find?_eq_some_iff_append.1 h
  have hsorted := pairwise_signs
  rw [hsplit] at hm hsorted
  rcases List.mem_append.1 hm with hm | hm
  · have hnot := hbefore m' hm
    rw [List.isPrefixOf_iff_prefix.2 hpre] at hnot
    cases hnot
  · rcases List.mem_cons.1 hm with rfl | hm
    · exact Nat.le_refl _
    · exact List.rel_of_pairwise_cons (List.pairwise_append.1 hsorted).2.1 hm

end

/-! ## Bites -/

section

variable {c : Char} {cs : List Char}

theorem munch_ofWord {w rest : List Char} (hw : IsName w) (hlong : Longest w rest) :
    Munch rest (some (.token (ofWord w))) w := by
  refine .token ?_ hlong
  unfold ofWord
  cases hfind : Mark.words.find? (fun m => decide (m.spelling = w)) with
  | some m =>
    obtain rfl : m.spelling = w := by simpa using List.find?_some hfind
    exact .mark m
  | none => exact .name hw fun m hm => by simpa using List.find?_eq_none.1 hfind m hm

theorem munch_ofDigits {w rest : List Char} (hw : IsNumber w) (hlong : Longest w rest) :
    Munch rest (some (ofDigits w)) w := by
  refine .token ?_ hlong
  unfold ofDigits
  split
  · exact .number hw ‹_›
  · exact .tooLarge hw (Nat.lt_of_not_le ‹_›)

theorem munch_biteToken (hplain : c = '/' → cs.head?.any (· = '/') = false ∧ cs.head?.any (· = '*') = false)
    (hb : isBlank c = false) : Munch (biteToken c cs).rest (biteToken c cs).kind (biteToken c cs).text := by
  unfold biteToken
  split
  · rename_i hc
    exact munch_ofWord (isName_cons.2 ⟨hc, List.all_eq_true.1 List.all_takeWhile⟩) (longest_name hc)
  · rename_i hl
    split
    · rename_i h0
      subst h0
      exact .token (.number (.inl rfl) (by decide)) longest_zero
    · rename_i h0
      split
      · rename_i hc
        exact munch_ofDigits (isNumber_cons.2 (.inr ⟨h0, hc, List.all_eq_true.1 List.all_takeWhile⟩))
          (longest_number h0 hc)
      · rename_i hd
        rw [Bool.not_eq_true] at hl hd
        cases hsign : signAt (c :: cs) with
        | some m =>
          obtain ⟨rest, hrest⟩ := mem_signs_prefix hsign
          refine .token (.mark m) (longest_cons c cs (by simp [← hrest]) fun r vs hv hvs => ?_)
          obtain ⟨m', hm', hs⟩ := exists_sign hl hd hb hplain hv hvs
          have := length_le_of_signAt hsign hm' (hs ▸ List.cons_prefix_cons.2 ⟨rfl, hvs⟩)
          rwa [hs] at this
        | none =>
          refine .stray fun r v hv hpre => ?_
          cases v with
          | nil => exact hv.ne_nil rfl
          | cons d vs =>
            obtain ⟨rfl, hvs⟩ := List.cons_prefix_cons.1 hpre
            obtain ⟨m', hm', hs⟩ := exists_sign hl hd hb hplain hv hvs
            have hnot := List.find?_eq_none.1 hsign m' hm'
            exact hnot (List.isPrefixOf_iff_prefix.2 (hs ▸ hpre))

/-- A comment that is closed ends at the first closing. -/
theorem exists_of_closeComment {body rest : List Char} (h : closeComment cs = some (body, rest)) :
    ∃ b, body = b ++ ['*', '/'] ∧ ¬ ['*', '/'] <:+: b := by
  fun_induction closeComment cs generalizing body rest with
  | case1 cs =>
    cases h
    exact ⟨[], rfl, by simp⟩
  | case2 c cs hne ih =>
    obtain ⟨⟨body', rest'⟩, hb, he⟩ := Option.map_eq_some_iff.1 h
    cases he
    obtain ⟨b, rfl, hnot⟩ := ih hb
    refine ⟨c :: b, rfl, fun hin => ?_⟩
    rcases List.infix_cons_iff.1 hin with hpre | hin
    · obtain ⟨rfl, t, rfl⟩ := List.cons_prefix_cons.1 hpre
      exact hne _ rfl (closeComment_append hb).symm
    · exact hnot hin
  | case3 => cases h

theorem closeComment_eq_none : closeComment cs = none ↔ ¬ ['*', '/'] <:+: cs := by
  constructor
  · intro h hin
    fun_induction closeComment cs with
    | case1 cs => cases h
    | case2 c cs hne ih =>
      rcases List.infix_cons_iff.1 hin with hpre | hin
      · obtain ⟨rfl, t, rfl⟩ := List.cons_prefix_cons.1 hpre
        exact hne _ rfl rfl
      · exact ih (Option.map_eq_none_iff.1 h) hin
    | case3 => simp at hin
  · intro h
    cases hclose : closeComment cs with
    | none => rfl
    | some r =>
      obtain ⟨body, rest⟩ := r
      obtain ⟨b, rfl, -⟩ := exists_of_closeComment hclose
      exact absurd ⟨b, rest, closeComment_append hclose⟩ h

theorem closeComment_first {rest : List Char} : ∀ {b : List Char}, ¬ ['*', '/'] <:+: b →
    closeComment (b ++ ['*', '/'] ++ rest) = some (b ++ ['*', '/'], rest)
  | [], _ => rfl
  | c :: b, h => by
    have hne : ∀ ds, c = '*' → b ++ ['*', '/'] ++ rest = '/' :: ds → False := by
      rintro ds rfl hds
      cases b with
      | nil => cases hds
      | cons d b =>
        cases hds
        exact h ⟨[], b, rfl⟩
    rw [List.cons_append, List.cons_append, closeComment.eq_2 _ _ hne,
      closeComment_first fun hin => h (List.infix_cons_iff.2 (.inr hin))]
    rfl

/-- **What is bitten off is what the text begins with.** -/
theorem munch_bite (c : Char) (cs : List Char) : Munch (bite c cs).rest (bite c cs).kind (bite c cs).text := by
  rcases plain_or_comment c cs with hplain | ⟨ds, rfl, rfl | rfl⟩
  · rw [bite_plain hplain]
    by_cases hb : isBlank c = true
    · rw [if_pos hb]
      exact .blank hb
    · rw [if_neg hb]
      exact munch_biteToken hplain (by simpa using hb)
  · rw [bite_line]
    refine .lineComment (fun hm => ?_) fun c hc => ?_
    · simpa using List.all_eq_true.1 List.all_takeWhile _ hm
    · have hend := head_dropWhile (· ≠ '\n') ds
      rw [Option.mem_def.1 hc] at hend
      simpa using hend
  · cases hclose : closeComment ds with
    | none =>
      rw [bite_unclosed hclose]
      exact .unclosed (closeComment_eq_none.1 hclose) rfl
    | some r =>
      obtain ⟨body, rest⟩ := r
      obtain ⟨b, rfl, hb⟩ := exists_of_closeComment hclose
      rw [bite_closed hclose]
      exact .comment hb

end

/-! ## Only one thing is munched -/

section

variable {k k' : LexemeKind} {w w' rest rest' : List Char}

theorem Denotes.exists_rule (h : Denotes k w) : ∃ r, Rule.Matches r w := by
  cases h with
  | mark m => exact ⟨.mark m, rfl⟩
  | number hw | tooLarge hw => exact ⟨.number, hw⟩
  | name hw => exact ⟨.name, hw⟩

/-- Bitten off alone, a token is of the kind that it denotes. -/
theorem Denotes.kind_biteToken {c : Char} {cs : List Char} (h : Denotes k (c :: cs)) :
    (biteToken c cs).kind = some k := by
  have hnumber : IsNumber (c :: cs) → (biteToken c cs).kind = some (ofDigits (c :: cs)) := fun hw => by
    unfold biteToken
    rcases isNumber_cons.1 hw with ⟨rfl, rfl⟩ | ⟨h0, hc, hcs⟩
    · rfl
    · have hl : ¬ isLetter c = true := fun hl => by simp [isDigit_of_isLetter hl] at hc
      obtain ⟨htake, -⟩ := takeWhile_run (b := []) hcs rfl
      rw [List.append_nil] at htake
      rw [if_neg hl, if_neg h0, if_pos hc, htake]
  generalize hw : c :: cs = w at h hnumber
  cases h with
  | mark m => cases m <;> cases hw <;> rfl
  | number hnum hfit => rw [hnumber hnum, ofDigits, if_pos hfit]
  | tooLarge hnum hlarge => rw [hnumber hnum, ofDigits, if_neg (Nat.not_le.2 hlarge)]
  | name hname hfree =>
    subst hw
    obtain ⟨hc, hcs⟩ := isName_cons.1 hname
    obtain ⟨htake, -⟩ := takeWhile_run (b := []) hcs rfl
    rw [List.append_nil] at htake
    rw [biteToken_word hc, htake, ofWord_eq_id.2 ⟨rfl, hfree⟩]

theorem Denotes.unique (h : Denotes k w) (h' : Denotes k' w) : k = k' := by
  obtain ⟨r, hr⟩ := h.exists_rule
  obtain ⟨c, cs, rfl⟩ := List.exists_cons_of_ne_nil hr.ne_nil
  exact Option.some.inj (h.kind_biteToken.symm.trans h'.kind_biteToken)

/-- A token does not begin with a blank, and only the sign of a division begins with a slash. -/
theorem Denotes.head {c : Char} {cs : List Char} (h : Denotes k (c :: cs)) :
    isBlank c = false ∧ (c = '/' → cs = []) := by
  have hname : IsName (c :: cs) → isBlank c = false ∧ (c = '/' → cs = []) := fun hw => by
    have hc := (isName_cons.1 hw).1
    exact ⟨isBlank_of_isNameChar (isNameChar_of_isLetter hc), by rintro rfl; cases hc⟩
  have hnumber : IsNumber (c :: cs) → isBlank c = false ∧ (c = '/' → cs = []) := fun hw => by
    have hc : c.isDigit = true := by
      rcases isNumber_cons.1 hw with ⟨rfl, -⟩ | ⟨-, hc, -⟩
      · rfl
      · exact hc
    exact ⟨isBlank_of_isNameChar (isNameChar_of_isDigit hc), by rintro rfl; cases hc⟩
  generalize hw : c :: cs = w at h hname hnumber
  cases h with
  | mark m =>
    rcases mem_signs_or_words m with hs | hword
    · exact (head_sign hs hw.symm).2.2
    · exact hname (isName_word hword)
  | number hnum | tooLarge hnum => exact hnumber hnum
  | name hn => exact hname hn

/-- Something matches where anything but a stray character is munched. -/
theorem Munch.exists_rule {k : Option LexemeKind} (h : Munch rest k w) :
    (∃ r v, Rule.Matches r v ∧ v <+: w ++ rest) ∨ k = some .invalid ∧ w.length = 1 := by
  cases h with
  | token hw =>
    obtain ⟨r, hr⟩ := hw.exists_rule
    exact .inl ⟨r, w, hr, List.prefix_append w rest⟩
  | blank hc => exact .inl ⟨.blanks, _, ⟨List.cons_ne_nil _ _, by simpa using hc⟩, List.prefix_append _ rest⟩
  | lineComment hbody => exact .inl ⟨.lineComment, _, ⟨_, rfl, hbody⟩, List.prefix_append _ rest⟩
  | comment hbody => exact .inl ⟨.opening, ['/', '*'], rfl, ⟨_, rfl⟩⟩
  | unclosed hbody => exact .inl ⟨.opening, ['/', '*'], rfl, ⟨_, rfl⟩⟩
  | stray => exact .inr ⟨rfl, rfl⟩

/-- **Where a token is the longest match, nothing else is munched.** -/
theorem Munch.eq_token {o : Option LexemeKind} (h : Munch rest' o w') (hw : Denotes k w) (hlong : Longest w rest)
    (happ : w' ++ rest' = w ++ rest) : o = some k ∧ w' = w := by
  obtain ⟨r, hr⟩ := hw.exists_rule
  obtain ⟨c, cs, rfl⟩ := List.exists_cons_of_ne_nil hr.ne_nil
  have hslash : ∀ {r : Rule} {x : Char} {ds : List Char}, r.Matches ['/', x] → w' ++ rest' = '/' :: x :: ds →
      False := by
    intro r x ds hmatch hbegin
    rw [happ] at hbegin
    obtain ⟨rfl, -⟩ := List.cons.inj hbegin
    have htwo := hlong r _ hmatch (hbegin ▸ ⟨ds, rfl⟩)
    rw [hw.head.2 rfl] at htwo
    exact absurd htwo (by simp)
  cases h with
  | token hw' hlong' =>
    have hle := hlong r _ hr (List.prefix_append _ _)
    obtain ⟨r', hr'⟩ := hw'.exists_rule
    have hlen : w'.length = (c :: cs).length :=
      Nat.le_antisymm (hlong r' _ hr' (happ ▸ List.prefix_append _ _)) (hlong' r _ hr (happ ▸ List.prefix_append _ _))
    obtain ⟨rfl, -⟩ := List.append_inj happ hlen
    exact ⟨congrArg some (hw'.unique hw), rfl⟩
  | blank hc =>
    obtain ⟨rfl, -⟩ := List.cons.inj happ
    rw [hw.head.1] at hc
    cases hc
  | lineComment => exact (hslash (r := .lineComment) ⟨[], rfl, List.not_mem_nil⟩ rfl).elim
  | comment | unclosed => exact (hslash (r := .opening) rfl rfl).elim
  | @stray d hnone =>
    have hpre : c :: cs <+: [d] ++ rest' := happ ▸ List.prefix_append _ _
    exact absurd hpre (hnone r _ hr)

/-- **What a text begins with is bitten off.** -/
theorem bite_of_munch {o : Option LexemeKind} (h : Munch rest o w) :
    ∃ c t, w = c :: t ∧ bite c (t ++ rest) = ⟨o, w, rest⟩ := by
  -- a bite is munched itself, so it is enough that it is of this kind and text
  have hbite : ∀ c t, w = c :: t → ((bite c (t ++ rest)).kind = o ∧ (bite c (t ++ rest)).text = w) →
      ∃ c t, w = c :: t ∧ bite c (t ++ rest) = ⟨o, w, rest⟩ := by
    rintro c t hw ⟨hkind, htext⟩
    have happ := (bite_append c (t ++ rest)).2
    rw [htext, ← List.cons_append, ← hw] at happ
    have hrest := List.append_cancel_left happ
    refine ⟨c, t, hw, ?_⟩
    generalize bite c (t ++ rest) = b at hkind htext hrest
    obtain ⟨k, v, r⟩ := b
    cases hkind
    cases htext
    cases hrest
    rfl
  cases h with
  | @token k w hw hlong =>
    obtain ⟨r, hr⟩ := hw.exists_rule
    obtain ⟨c, t, rfl⟩ := List.exists_cons_of_ne_nil hr.ne_nil
    exact hbite c t rfl ((munch_bite c (t ++ rest)).eq_token hw hlong (bite_append c (t ++ rest)).2)
  | @blank c hc =>
    refine ⟨c, [], rfl, ?_⟩
    rw [List.nil_append, bite_plain (by rintro rfl; cases hc), if_pos hc]
  | @lineComment body hbody hrest =>
    obtain ⟨htake, hdrop⟩ := takeWhile_run (p := (· ≠ '\n')) (a := body) (b := rest)
      (fun c hc => by simpa using fun h : c = '\n' => hbody (h ▸ hc)) (by
        cases rest with
        | nil => rfl
        | cons c rest => simpa using hrest c rfl)
    exact ⟨'/', '/' :: body, rfl, by rw [List.cons_append, bite_line, htake, hdrop]⟩
  | @comment body hbody => exact ⟨'/', _, rfl, bite_closed (closeComment_first hbody)⟩
  | @unclosed body hbody hrest =>
    subst hrest
    exact ⟨'/', '*' :: body, rfl, by rw [List.append_nil, bite_unclosed (closeComment_eq_none.2 hbody)]⟩
  | @stray c hnone =>
    refine hbite c [] rfl ?_
    rw [List.nil_append]
    have happ := (bite_append c rest).2
    rcases (munch_bite c rest).exists_rule with ⟨r, v, hr, hpre⟩ | ⟨hkind, hlen⟩
    · exact absurd (happ ▸ hpre) (hnone r v hr)
    · obtain ⟨d, hd⟩ := List.length_eq_one_iff.1 hlen
      rw [hd] at happ ⊢
      exact ⟨hkind, congrArg (fun x => [x]) (List.cons.inj happ).1⟩

end

end Token
end FoolLang
