import FoolLang.Proofs.Cuts
import FoolLang.Proofs.Words
/-!
# Spellings — tokens written out and read back

The spelling of a token denotes it, and no text but its spelling does (`denotes_iff`).  Before a blank or the end it is
also the longest match, so spellings with blanks between them are cut back into what they were made of
(`cut_spaced`), and lexing gives the tokens back (`lex_spellings`).
-/
namespace FoolLang

open Text

/-! ## Numbers -/

namespace Text

theorem exists_digitChar {c : Char} (h : c.isDigit = true) : ∃ v < 10, v.digitChar = c := by
  obtain ⟨hlo, hhi⟩ := Char.isDigit_iff_toNat.1 h
  have hlo : 48 ≤ c.toNat := hlo
  have hhi : c.toNat ≤ 57 := hhi
  have hchar : ∀ v < 10, v.digitChar = Char.ofNat (v + 48) := by decide
  refine ⟨c.toNat - 48, by omega, ?_⟩
  rw [hchar _ (by omega), Nat.sub_add_cancel hlo, Char.ofNat_toNat]

/-- Digits read after a number are the digits that follow it. -/
theorem decimal_ofDigitChars : ∀ {ds : List Char} {n : Nat}, 0 < n → (∀ d ∈ ds, d.isDigit = true) →
    decimal (Nat.ofDigitChars 10 ds n) = decimal n ++ ds
  | [], n, _, _ => (List.append_nil (decimal n)).symm
  | d :: ds, n, hn, h => by
    obtain ⟨hd, hds⟩ := List.forall_mem_cons.1 h
    obtain ⟨v, hv, rfl⟩ := exists_digitChar hd
    have hshift : decimal (10 * n + v) = decimal n ++ [v.digitChar] := by
      rw [decimal, decimal, ← Nat.toDigits_append_toDigits (by decide) hn hv, Nat.toDigits_of_lt_base hv]
    rw [Nat.ofDigitChars_cons_digitChar_of_lt_ten hv, decimal_ofDigitChars (by omega) hds, hshift, List.append_assoc,
      List.singleton_append]

end Text

namespace Token

theorem isNumber_decimal (n : Nat) : IsNumber (decimal n) := by
  obtain ⟨c, cs, hn⟩ := List.exists_cons_of_ne_nil (decimal_ne_nil n)
  have hdigit : ∀ d ∈ c :: cs, d.isDigit = true := fun d hd => isDigit_of_mem_decimal (n := n) (hn ▸ hd)
  rw [hn]
  by_cases h0 : c = '0'
  · subst h0
    exact isNumber_cons.2 (.inl ⟨rfl, decimal_cons_zero hn⟩)
  · obtain ⟨hc, hcs⟩ := List.forall_mem_cons.1 hdigit
    exact isNumber_cons.2 (.inr ⟨h0, hc, hcs⟩)

/-- **A number is the decimal of its value.** -/
theorem decimal_ofDecimal {w : List Char} (h : IsNumber w) : decimal (ofDecimal w) = w := by
  rcases h with rfl | ⟨c, cs, rfl, h0, hc, hcs⟩
  · rfl
  · obtain ⟨v, hv, rfl⟩ := exists_digitChar hc
    have hpos : 0 < v := Nat.pos_of_ne_zero (by rintro rfl; exact h0 rfl)
    rw [ofDecimal, Nat.ofDigitChars_cons_digitChar_of_lt_ten hv, Nat.mul_zero, Nat.zero_add,
      decimal_ofDigitChars hpos hcs, decimal, Nat.toDigits_of_lt_base hv, List.singleton_append]

/-! ## Tokens -/

/-- Whether a source can hold a token: its number fits 32 bits, its name is no reserved word. -/
def IsProper : Token → Prop
  | mark _ => True
  | num n => n ≤ maxInt32
  | id x => x.isProper = true

instance : DecidablePred IsProper
  | mark _ => isTrue trivial
  | num n => inferInstanceAs (Decidable (n ≤ maxInt32))
  | id x => inferInstanceAs (Decidable (x.isProper = true))

theorem denotes_spelling {t : Token} (h : t.IsProper) : Denotes (.token t) t.spelling := by
  cases t with
  | mark m => exact .mark m
  | num n =>
    have hvalue : ofDecimal (decimal n) = n := ofDecimal_decimal n
    have hfit : ofDecimal (decimal n) ≤ maxInt32 := hvalue.symm ▸ h
    have := Denotes.number (isNumber_decimal n) hfit
    rwa [hvalue] at this
  | id x =>
    obtain ⟨c, cs, hx, hc, hcs, hfree⟩ := Ident.isProper_iff.1 h
    exact .name ⟨c, cs, hx, hc, hcs⟩ hfree

/-- **The spelling of a token, and nothing else, denotes it.** -/
theorem denotes_iff {t : Token} {w : List Char} : Denotes (.token t) w ↔ w = t.spelling ∧ t.IsProper := by
  constructor
  · intro h
    cases h with
    | mark m => exact ⟨rfl, trivial⟩
    | number hw hfit => exact ⟨(decimal_ofDecimal hw).symm, hfit⟩
    | name hw hfree =>
      obtain ⟨c, cs, hx, hc, hcs⟩ := hw
      exact ⟨rfl, Ident.isProper_iff.2 ⟨c, cs, hx, hc, hcs, hfree⟩⟩
  · rintro ⟨rfl, h⟩
    exact denotes_spelling h

/-- No rule but that of blanks matches a blank after something else. -/
theorem Rule.Matches.no_blank {r : Rule} {c b : Char} {t s : List Char} (h : r.Matches (c :: (t ++ b :: s)))
    (hc : isBlank c = false) (hslash : c = '/' → t = []) : isBlank b = false := by
  have hmem : b ∈ t ++ b :: s := List.mem_append_right _ List.mem_cons_self
  rcases h.shape with hname | hnum | hblank | ⟨rfl, hcomment⟩ | ⟨m, hm, hs⟩
  · exact isBlank_of_isNameChar ((isName_cons.1 hname).2 b hmem)
  · rcases isNumber_cons.1 hnum with ⟨-, hnil⟩ | ⟨-, -, hdigits⟩
    · simp at hnil
    · exact isBlank_of_isNameChar (isNameChar_of_isDigit (hdigits b hmem))
  · rw [hc] at hblank
    cases hblank
  · rw [hslash rfl] at hcomment
    rcases hcomment with h | h
    · obtain rfl : b = '/' := by simpa using h
      rfl
    · obtain rfl : b = '*' := by simpa using h
      rfl
  · have hall : ∀ m ∈ Mark.signs, m.spelling.all (fun d => !isBlank d) = true := by decide
    have hb := List.all_eq_true.1 (hall m hm) b (hs ▸ List.mem_cons_of_mem _ hmem)
    simpa using hb

/-- **Before a blank or the end a token is the longest match.** -/
theorem Denotes.longest {k : LexemeKind} {w rest : List Char} (h : Denotes k w)
    (hrest : ∀ c ∈ rest.head?, isBlank c = true) : Longest w rest := by
  intro r v hv hpre
  by_contra hlen
  -- a longer match would hold the blank
  obtain ⟨u, rfl⟩ := List.prefix_of_prefix_length_le (List.prefix_append w rest) hpre (by omega)
  obtain ⟨r', hr'⟩ := h.exists_rule
  obtain ⟨c, t, rfl⟩ := List.exists_cons_of_ne_nil hr'.ne_nil
  cases u with
  | nil => simp at hlen
  | cons b s =>
    obtain ⟨z, rfl⟩ := (List.prefix_append_right_inj _).1 hpre
    have hb := hrest b rfl
    rw [Rule.Matches.no_blank (by simpa using hv) h.head.1 h.head.2] at hb
    cases hb

/-! ## Texts with blanks between them -/

/-- Texts with a blank between any two of them. -/
def spaced (ws : List (List Char)) : List Char := [' '].intercalate ws

/-- **Spellings with blanks between them are cut into the tokens and the blanks.** -/
theorem cut_spaced : ∀ {ts : List Token}, (∀ t ∈ ts, t.IsProper) →
    ∃ ps, Cut (spaced (ts.map spelling)) ps ∧ ps.filterMap Piece.kind = ts.map .token
  | [], _ => ⟨[], .nil, rfl⟩
  | [t], h => by
    have ht := denotes_spelling (h t List.mem_cons_self)
    have hcut : Cut (t.spelling ++ []) [⟨some (.token t), t.spelling⟩] :=
      .cons (p := ⟨some (.token t), t.spelling⟩) (.token ht (ht.longest (by simp))) .nil
    exact ⟨_, by simpa [spaced, List.intercalate] using hcut, rfl⟩
  | t :: u :: ts, h => by
    obtain ⟨ht, hts⟩ := List.forall_mem_cons.1 h
    obtain ⟨ps, hcut, hkinds⟩ := cut_spaced hts
    have hdenotes := denotes_spelling ht
    have hspaced : spaced ((t :: u :: ts).map spelling) = t.spelling ++ ([' '] ++ spaced ((u :: ts).map spelling)) := by
      simp [spaced, List.intercalate]
    refine ⟨⟨some (.token t), t.spelling⟩ :: ⟨none, [' ']⟩ :: ps, ?_, ?_⟩
    · rw [hspaced]
      refine .cons (p := ⟨some (.token t), t.spelling⟩) (.token hdenotes (hdenotes.longest ?_))
        (.cons (p := ⟨none, [' ']⟩) (.blank rfl) hcut)
      rintro c ⟨⟩
      rfl
    · rw [List.map_cons, ← hkinds]
      rfl

theorem kinds_of_cut {source : List Char} {ps : List Piece} (h : Cut source ps) :
    (lex source).map Lexeme.kind = ps.filterMap Piece.kind ++ [.eof] := by
  rw [lex, List.map_append, scan, scanFrom_kinds, h.eq_piecesFrom (Nat.le_refl _)]
  rfl

theorem lex_spaced {ts : List Token} (h : ∀ t ∈ ts, t.IsProper) :
    (lex (spaced (ts.map spelling))).map Lexeme.kind = ts.map .token ++ [.eof] := by
  obtain ⟨ps, hcut, hkinds⟩ := cut_spaced h
  rw [kinds_of_cut hcut, hkinds]

/-- A token of a source is spelled there. -/
theorem spelled_of_mem {source : List Char} {l : Lexeme} {t : Token} (hl : l ∈ scan source) (ht : l.kind = .token t) :
    l.text = t.spelling ∧ t.IsProper := by
  rw [scan, scanFrom_eq_lexemes] at hl
  obtain ⟨before, after, hstands⟩ := stands_of_mem (.of_piecesFrom (Nat.le_refl _)) hl
  have hmunch := hstands.munch
  rw [ht] at hmunch
  cases hmunch with
  | token hw => exact denotes_iff.1 hw

/-- The lexemes of a source without faults are spelled tokens. -/
theorem exists_tokens : ∀ {ls : List Lexeme}, (∀ l ∈ ls, ∃ t, l.kind = .token t ∧ l.text = t.spelling ∧ t.IsProper) →
    ∃ ts : List Token, ls.map Lexeme.kind = ts.map .token ∧ ls.map Lexeme.text = ts.map spelling ∧
      ∀ t ∈ ts, t.IsProper
  | [], _ => ⟨[], rfl, rfl, nofun⟩
  | l :: ls, h => by
    obtain ⟨⟨t, hkind, htext, ht⟩, hls⟩ := List.forall_mem_cons.1 h
    obtain ⟨ts, hkinds, htexts, hts⟩ := exists_tokens hls
    exact ⟨t :: ts, by rw [List.map_cons, List.map_cons, hkind, hkinds],
      by rw [List.map_cons, List.map_cons, htext, htexts], List.forall_mem_cons.2 ⟨ht, hts⟩⟩

end Token

open Token

/-- **Lexing undoes spelling.**  The tokens that a source can hold are the marks, the numbers that fit 32 bits and the
names that are no reserved words.  Any of them, spelled with single blanks in between, are lexed to these tokens and the
end; and so are the texts of the tokens of a source, if all its lexemes are tokens. -/
theorem lex_spellings :
    (∀ ts : List Token, (∀ t ∈ ts, t.IsProper) →
      (lex (spaced (ts.map Token.spelling))).map Lexeme.kind = ts.map .token ++ [.eof]) ∧
    (∀ source, (∀ l ∈ lex source, l.kind ≠ .invalid) →
      (lex (spaced ((scan source).map Lexeme.text))).map Lexeme.kind = (lex source).map Lexeme.kind) ∧
    ∀ t : Token, t.IsProper ↔ ∃ source, ∃ l ∈ lex source, l.kind = .token t := by
  refine ⟨fun ts => lex_spaced, fun source h => ?_, fun t => ⟨fun ht => ?_, ?_⟩⟩
  · have htokens : ∀ l ∈ scan source, ∃ t, l.kind = .token t ∧ l.text = t.spelling ∧ t.IsProper := fun l hl => by
      cases hk : l.kind with
      | token t => exact ⟨t, rfl, spelled_of_mem hl hk⟩
      | invalid => exact absurd hk (h l (List.mem_append_left _ hl))
      | eof => exact absurd hk (scan_ne_eof _ _ _ l hl)
    obtain ⟨ts, hkinds, htexts, hproper⟩ := exists_tokens htokens
    rw [htexts, lex_spaced hproper, ← hkinds, lex, List.map_append]
    rfl
  · have hlex : (lex (spaced ([t].map Token.spelling))).map Lexeme.kind = [.token t, .eof] :=
      lex_spaced (List.forall_mem_singleton.2 ht)
    obtain ⟨l, hl, hkind⟩ := List.mem_map.1 (hlex ▸ List.mem_cons_self)
    exact ⟨_, l, hl, hkind⟩
  · rintro ⟨source, l, hl, hkind⟩
    rcases List.mem_append.1 hl with hl | hl
    · exact (spelled_of_mem hl hkind).2
    · rw [List.mem_singleton.1 hl] at hkind
      cases hkind

/-- Marks that together would open comments, a name that a reserved word starts, and the largest number. -/
def slashMarks : List Token :=
  [.mark .div, .mark .div, .mark .times, .mark .kwLet, .id ⟨"lets".toList⟩, .num 2147483647]

/-- A source without a blank, and with comments. -/
def tightSource : List Char := "x:=/**/y2;//".toList

/-- Blanks keep the marks apart, and they can replace the comments. -/
theorem slashMarks_spelled :
    (∀ t ∈ slashMarks, t.IsProper) ∧
    (lex "/ / * let lets 2147483647".toList).map Lexeme.kind = slashMarks.map .token ++ [.eof] ∧
    (∀ l ∈ lex tightSource, l.kind ≠ .invalid) ∧
    (lex "x := y2 ;".toList).map Lexeme.kind = (lex tightSource).map Lexeme.kind := by
  obtain ⟨hspelled, hagain, -⟩ := lex_spellings
  have hproper : ∀ t ∈ slashMarks, t.IsProper := by decide
  have hvalid : ∀ l ∈ lex tightSource, l.kind ≠ .invalid := by decide
  have htext : spaced (slashMarks.map Token.spelling) = "/ / * let lets 2147483647".toList := by decide
  have htight : spaced ((scan tightSource).map Lexeme.text) = "x := y2 ;".toList := by decide
  exact ⟨hproper, htext ▸ hspelled slashMarks hproper, hvalid, htight ▸ hagain tightSource hvalid⟩

end FoolLang
