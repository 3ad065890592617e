import FoolLang.Proofs.Munches
import FoolLang.Proofs.Pieces
/-!
# Cuts — a source and its pieces

A source is cut by taking off what it begins with, again and again.  There is one way to do so (`Cut.eq_pieces`), and it
gives the lexemes and what is skipped between them.  Each lexeme stands where its span says (`stands_of_mem`), they come
in order, and every byte is in one of them or in a blank or a comment (`lex_cuts_source`).
-/
namespace FoolLang

open Text Token

/-- Pieces of a source, each of them what the source begins with from there on. -/
inductive Cut : List Char → List Piece → Prop
  | nil : Cut [] []
  | cons {p : Piece} {rest : List Char} {ps : List Piece} (head : Munch rest p.kind p.text) (tail : Cut rest ps) :
    Cut (p.text ++ rest) (p :: ps)

namespace Cut

variable {source : List Char} {ps : List Piece}

theorem glue_eq (h : Cut source ps) : glue ps = source := by
  induction h with
  | nil => rfl
  | cons _ _ ih => rw [glue_cons, ih]

theorem of_piecesFrom : ∀ {fuel : Nat} {cs : List Char}, cs.length ≤ fuel → Cut cs (piecesFrom fuel cs)
  | fuel, [], _ => by cases fuel <;> exact .nil
  | fuel + 1, c :: cs, hfuel => by
    have hrest := Nat.le_trans (length_bite_rest c cs) (Nat.le_of_succ_le_succ hfuel)
    rw [piecesFrom, ← (bite_append c cs).2]
    exact .cons (p := (bite c cs).piece) (munch_bite c cs) (of_piecesFrom hrest)

/-- **There is only one way to cut a source.** -/
theorem eq_piecesFrom (h : Cut source ps) : ∀ {fuel : Nat}, source.length ≤ fuel → ps = piecesFrom fuel source := by
  induction h with
  | nil => rintro (_ | _) _ <;> rfl
  | @cons p rest ps head tail ih =>
    intro fuel hfuel
    obtain ⟨c, t, hp, hbite⟩ := bite_of_munch head
    rw [hp, List.cons_append] at hfuel ⊢
    cases fuel with
    | zero => cases hfuel
    | succ fuel =>
      rw [List.length_cons, List.length_append] at hfuel
      rw [piecesFrom, hbite, ← ih (by omega)]
      rfl

/-- A piece of a cut is what is munched before the pieces after it. -/
theorem munch {before after : List Piece} {p : Piece} (h : Cut source ps) (hps : ps = before ++ p :: after) :
    Munch (glue after) p.kind p.text := by
  induction h generalizing before with
  | nil => cases before <;> cases hps
  | cons head tail ih =>
    cases before with
    | nil =>
      cases hps
      rw [tail.glue_eq]
      exact head
    | cons q before =>
      cases hps
      exact ih rfl

end Cut

/-! ## Spans -/

/-- The lexemes among pieces, the first of which starts at byte `pos`. -/
def lexemes : Nat → List Piece → List Lexeme
  | _, [] => []
  | pos, p :: ps =>
    (p.kind.map (⟨·, p.text, pos, pos + byteLength p.text⟩)).toList ++ lexemes (pos + byteLength p.text) ps

theorem scanFrom_eq_lexemes : ∀ (fuel pos : Nat) (cs : List Char),
    scanFrom fuel pos cs = lexemes pos (piecesFrom fuel cs)
  | 0, _, _ => rfl
  | _ + 1, _, [] => rfl
  | fuel + 1, pos, c :: cs => by
    rw [scanFrom, piecesFrom, lexemes]
    unfold Bite.piece
    cases (bite c cs).kind with
    | none => exact scanFrom_eq_lexemes fuel _ _
    | some k => exact congrArg (_ :: ·) (scanFrom_eq_lexemes fuel _ _)

theorem glue_append (ps qs : List Piece) : glue (ps ++ qs) = glue ps ++ glue qs := List.flatMap_append

/-- A lexeme is one of the pieces, and starts after those before it. -/
theorem mem_lexemes : ∀ {ps : List Piece} {pos : Nat} {l : Lexeme}, l ∈ lexemes pos ps ↔
    ∃ before p after, ps = before ++ p :: after ∧ p.kind = some l.kind ∧ p.text = l.text ∧
      l.start = pos + byteLength (glue before) ∧ l.stop = l.start + byteLength l.text
  | [], _, _ => by simp [lexemes]
  | p :: ps, pos, l => by
    rw [lexemes, List.mem_append, mem_lexemes]
    constructor
    · rintro (h | ⟨before, q, after, rfl, hkind, htext, hstart, hstop⟩)
      · obtain ⟨k, hk, rfl⟩ : ∃ k, p.kind = some k ∧ ⟨k, p.text, pos, pos + byteLength p.text⟩ = l := by simpa using h
        exact ⟨[], p, ps, rfl, hk, rfl, rfl, rfl⟩
      · refine ⟨p :: before, q, after, rfl, hkind, htext, ?_, hstop⟩
        rw [hstart, glue_cons, byteLength_append, Nat.add_assoc]
    · rintro ⟨before, q, after, hps, hkind, htext, hstart, hstop⟩
      cases before with
      | nil =>
        cases hps
        refine .inl ?_
        obtain ⟨k, t, a, z⟩ := l
        simp_all [glue, byteLength]
      | cons r before =>
        cases hps
        refine .inr ⟨before, q, after, rfl, hkind, htext, ?_, hstop⟩
        rw [hstart, glue_cons, byteLength_append, Nat.add_assoc]

theorem le_start_of_mem {ps : List Piece} {pos : Nat} {l : Lexeme} (h : l ∈ lexemes pos ps) : pos ≤ l.start := by
  obtain ⟨before, p, after, -, -, -, hstart, -⟩ := mem_lexemes.1 h
  omega

/-- **Lexemes come in order.** -/
theorem pairwise_lexemes : ∀ (ps : List Piece) (pos : Nat), (lexemes pos ps).Pairwise fun l m => l.stop ≤ m.start
  | [], _ => .nil
  | p :: ps, pos => by
    rw [lexemes]
    cases p.kind with
    | none => exact pairwise_lexemes ps _
    | some k => exact .cons (fun m hm => le_start_of_mem hm) (pairwise_lexemes ps _)

/-- **Every byte is in a piece.** -/
theorem exists_piece : ∀ {ps : List Piece} {i : Nat}, i < byteLength (glue ps) →
    ∃ before p after, ps = before ++ p :: after ∧ byteLength (glue before) ≤ i ∧
      i < byteLength (glue before) + byteLength p.text
  | [], _, h => absurd h (Nat.not_lt_zero _)
  | p :: ps, i, h => by
    rw [glue_cons, byteLength_append] at h
    by_cases hi : i < byteLength p.text
    · exact ⟨[], p, ps, rfl, Nat.zero_le _, by rwa [show byteLength (glue []) = 0 from rfl, Nat.zero_add]⟩
    · have hrest : i - byteLength p.text < byteLength (glue ps) := by omega
      obtain ⟨before, q, after, rfl, hlo, hhi⟩ := exists_piece hrest
      refine ⟨p :: before, q, after, rfl, ?_, ?_⟩ <;> rw [glue_cons, byteLength_append] <;> omega

/-- A lexeme of a source between these texts, its span in bytes and its kind that of the longest match there. -/
structure Lexeme.Stands (l : Lexeme) (source before after : List Char) : Prop where
  whole : source = before ++ l.text ++ after
  start : l.start = byteLength before
  stop : l.stop = byteLength (before ++ l.text)
  munch : Munch after (some l.kind) l.text

theorem pos_byteLength : ∀ {cs : List Char}, cs ≠ [] → 0 < byteLength cs
  | [], h => absurd rfl h
  | c :: _, _ => Nat.lt_add_right _ c.utf8Size_pos

namespace Lexeme.Stands

variable {l : Lexeme} {source before after : List Char} (h : l.Stands source before after)

include h

theorem start_lt_stop : l.start < l.stop := by
  obtain ⟨c, t, ht, -⟩ := bite_of_munch h.munch
  have hpos := pos_byteLength (ht ▸ List.cons_ne_nil c t)
  rw [h.start, h.stop, byteLength_append]
  omega

theorem kind_ne_eof : l.kind ≠ .eof := fun he => by
  have hmunch := h.munch
  rw [he] at hmunch
  cases hmunch with
  | token hw => cases hw

/-- The bytes of its text are those of its span. -/
theorem bytes : ((utf8 source).drop l.start).take (l.stop - l.start) = utf8 l.text := by
  have hlen : l.stop - l.start = (utf8 l.text).length := by
    rw [h.start, h.stop, byteLength_append, Nat.add_sub_cancel_left, length_utf8]
  rw [hlen, h.start, h.whole, ← length_utf8, utf8_append, utf8_append, List.append_assoc, List.drop_left,
    List.take_left]

end Lexeme.Stands

section

variable {source : List Char} {ps : List Piece} (h : Cut source ps)

include h

/-- **A lexeme stands where its span says.** -/
theorem stands_of_mem {l : Lexeme} (hl : l ∈ lexemes 0 ps) : ∃ before after, l.Stands source before after := by
  obtain ⟨before, p, after, hps, hkind, htext, hstart, hstop⟩ := mem_lexemes.1 hl
  rw [Nat.zero_add] at hstart
  refine ⟨glue before, glue after, ?_, hstart, ?_, ?_⟩
  · rw [← h.glue_eq, hps, glue_append, glue_cons, htext, List.append_assoc]
  · rw [byteLength_append, ← hstart, hstop]
  · rw [← hkind, ← htext]
    exact h.munch hps

/-- **A byte outside the lexemes is skipped.** -/
theorem in_lexeme_or_skipped {i : Nat} (hi : i < byteLength source) :
    (∃ l ∈ lexemes 0 ps, l.start ≤ i ∧ i < l.stop) ∨
      ∃ before p after, ps = before ++ p :: after ∧ Munch (glue after) none p.text ∧
        byteLength (glue before) ≤ i ∧ i < byteLength (glue before ++ p.text) := by
  rw [← h.glue_eq] at hi
  obtain ⟨before, p, after, hps, hlo, hhi⟩ := exists_piece hi
  cases hkind : p.kind with
  | none =>
    refine .inr ⟨before, p, after, hps, hkind ▸ h.munch hps, hlo, ?_⟩
    rwa [byteLength_append]
  | some k =>
    refine .inl ⟨⟨k, p.text, byteLength (glue before), byteLength (glue before) + byteLength p.text⟩, ?_, hlo, hhi⟩
    exact mem_lexemes.2 ⟨before, p, after, hps, hkind, rfl, (Nat.zero_add _).symm, rfl⟩

end

/-- **A source is cut by longest matches, and nothing of it is lost.**  There is one way to cut it into pieces that each
are what is munched there: the longest match of a token, a single character where nothing matches, a comment that is not
closed, or what is skipped.  The lexemes are the pieces that are not skipped, with their spans in bytes, and after them
comes the end, once.  Their spans are not empty, come in order, lie between characters and hold the bytes of their
texts; every other byte is skipped, in a blank or a comment. -/
theorem lex_cuts_source (source : List Char) : ∃ ps : List Piece, (∀ qs, Cut source qs ↔ qs = ps) ∧ glue ps = source ∧
    lex source = lexemes 0 ps ++ [⟨.eof, [], byteLength source, byteLength source⟩] ∧
    (∀ l ∈ lexemes 0 ps, l.kind ≠ .eof ∧ l.start < l.stop ∧ (∃ before after, l.Stands source before after) ∧
      ((utf8 source).drop l.start).take (l.stop - l.start) = utf8 l.text) ∧
    (lexemes 0 ps).Pairwise (fun l m => l.stop ≤ m.start) ∧
    ∀ i < byteLength source, (∃ l ∈ lexemes 0 ps, l.start ≤ i ∧ i < l.stop) ∨
      ∃ before p after, ps = before ++ p :: after ∧ Munch (glue after) none p.text ∧
        byteLength (glue before) ≤ i ∧ i < byteLength (glue before ++ p.text) := by
  have hcut : Cut source (pieces source) := .of_piecesFrom (Nat.le_refl _)
  refine ⟨pieces source, fun qs => ⟨fun h => h.eq_piecesFrom (Nat.le_refl _), ?_⟩, hcut.glue_eq, ?_, fun l hl => ?_,
    pairwise_lexemes _ _, fun i hi => in_lexeme_or_skipped hcut hi⟩
  · rintro rfl
    exact hcut
  · rw [lex, scan, scanFrom_eq_lexemes]
    rfl
  · obtain ⟨before, after, hl⟩ := stands_of_mem hcut hl
    exact ⟨hl.kind_ne_eof, hl.start_lt_stop, ⟨before, after, hl⟩, hl.bytes⟩

example : (lex "é/**/&b".toList).map (fun l => (l.start, l.stop)) = [(0, 2), (6, 7), (7, 8), (8, 8)] := by decide

end FoolLang
