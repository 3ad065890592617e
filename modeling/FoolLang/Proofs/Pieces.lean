import FoolLang.Proofs.Positions
import FoolLang.Proofs.Rebites
import FoolLang.Proofs.Viable
/-!
# Pieces — a source cut into pieces, and other names put in

A source is its pieces one after the other: tokens, what is no token, blanks and comments.  Where each name is replaced
by another one that can stand there, the pieces of what results are the pieces that were put in
(`piecesFrom_rename`), so it has the same tokens on the same lines, up to names (`linedTokens_rename`).
-/
namespace FoolLang

open Text

/-- A stretch of source, of no kind if it is skipped. -/
structure Piece where
  kind : Option LexemeKind
  text : List Char

/-- What was bitten off, without the rest. -/
def Token.Bite.piece (b : Token.Bite) : Piece := ⟨b.kind, b.text⟩

/-- The pieces of a text, of which there are no more than characters. -/
def piecesFrom : Nat → List Char → List Piece
  | 0, _ => []
  | _ + 1, [] => []
  | fuel + 1, c :: cs => (Token.bite c cs).piece :: piecesFrom fuel (Token.bite c cs).rest

def pieces (source : List Char) : List Piece := piecesFrom source.length source

/-- Pieces as one text. -/
def glue (ps : List Piece) : List Char := ps.flatMap Piece.text

@[simp] theorem glue_cons (p : Piece) (ps : List Piece) : glue (p :: ps) = p.text ++ glue ps := List.flatMap_cons

/-- A piece with another name in it. -/
def Piece.rename (ρ : Ident → Ident) (p : Piece) : Piece :=
  match p.kind with
  | some (.token (.id x)) => ⟨some (.token (.id (ρ x))), (ρ x).chars⟩
  | _ => p

/-- **A source with each name replaced by its image.** -/
def renameSource (ρ : Ident → Ident) (source : List Char) : List Char := glue ((pieces source).map (Piece.rename ρ))

/-! ## Tokens and lines -/

/-- The line of a place is told by the line feeds before it. -/
theorem locate_line (pre cs : List Char) :
    (Position.locate (pre ++ cs) (byteLength pre)).line = 1 + pre.count '\n' := by
  rw [Position.line_locate, utf8_append, ← length_utf8, List.take_left, count_lineFeed, Nat.add_comm]

/-- The token that a piece is. -/
def Piece.token? (p : Piece) : Option Token :=
  match p.kind with
  | some (.token t) => some t
  | _ => none

/-- The tokens among pieces, the first of which stands on the given line. -/
def linedPieces : Nat → List Piece → List LinedToken
  | _, [] => []
  | line, p :: ps => (p.token?.map (⟨·, line⟩)).toList ++ linedPieces (line + p.text.count '\n') ps

theorem scanFrom_lined {source : List Char} : ∀ (fuel : Nat) (pre cs : List Char), source = pre ++ cs →
    ((Token.scanFrom fuel (byteLength pre) cs).filterMap fun l =>
      match l.kind with
      | .token t => some ⟨t, (Position.locate source l.start).line⟩
      | _ => none) = linedPieces (1 + pre.count '\n') (piecesFrom fuel cs)
  | 0, _, _, _ => rfl
  | _ + 1, _, [], _ => rfl
  | fuel + 1, pre, c :: cs, hsource => by
    obtain ⟨-, happ⟩ := Token.bite_append c cs
    have hrest : source = (pre ++ (Token.bite c cs).text) ++ (Token.bite c cs).rest := by
      rw [List.append_assoc, happ, hsource]
    have ih := scanFrom_lined fuel _ _ hrest
    rw [byteLength_append, List.count_append, ← Nat.add_assoc] at ih
    have hline := locate_line pre (c :: cs)
    rw [← hsource] at hline
    rw [Token.scanFrom, piecesFrom, linedPieces]
    unfold Piece.token? Token.Bite.piece
    cases hk : (Token.bite c cs).kind with
    | none => exact ih
    | some k =>
      cases k with
      | token t =>
        simp only [List.filterMap_cons, hline, ih]
        rfl
      | _ => exact ih

theorem linedTokens_eq (source : List Char) : linedTokens source = linedPieces 1 (pieces source) :=
  scanFrom_lined source.length [] source rfl

theorem scanFrom_kinds : ∀ (fuel pos : Nat) (cs : List Char),
    (Token.scanFrom fuel pos cs).map Lexeme.kind = (piecesFrom fuel cs).filterMap Piece.kind
  | 0, _, _ => rfl
  | _ + 1, _, [] => rfl
  | fuel + 1, pos, c :: cs => by
    rw [Token.scanFrom, piecesFrom, List.filterMap_cons]
    unfold Token.Bite.piece
    cases (Token.bite c cs).kind with
    | none => exact scanFrom_kinds fuel _ _
    | some k => exact congrArg (k :: ·) (scanFrom_kinds fuel _ _)

theorem exists_lexeme_iff {source : List Char} {k : LexemeKind} :
    (∃ l ∈ Token.scan source, l.kind = k) ↔ ∃ p ∈ pieces source, p.kind = some k := by
  rw [← List.mem_map, Token.scan, scanFrom_kinds, List.mem_filterMap]
  rfl

/-! ## Other names -/

theorem length_bite_rest (c : Char) (cs : List Char) : (Token.bite c cs).rest.length ≤ cs.length := by
  obtain ⟨hne, happ⟩ := Token.bite_append c cs
  have hlen := congrArg List.length happ
  have := List.length_pos_iff.2 hne
  rw [List.length_append, List.length_cons] at hlen
  omega

section

variable {ρ : Ident → Ident}

theorem rename_of_name {p : Piece} {x : Ident} (h : p.kind = some (.token (.id x))) :
    p.rename ρ = ⟨some (.token (.id (ρ x))), (ρ x).chars⟩ := by
  rw [Piece.rename, h]

theorem rename_of_other {p : Piece} (h : ∀ x, p.kind ≠ some (.token (.id x))) : p.rename ρ = p := by
  unfold Piece.rename
  split
  · exact (h _ ‹_›).elim
  · rfl

/-- The names among pieces may be replaced by these ones. -/
def Renames (ρ : Ident → Ident) (ps : List Piece) : Prop :=
  ∀ p ∈ ps, ∀ x, p.kind = some (.token (.id x)) → (ρ x).isProper = true

/-- What is bitten off with another name in it is bitten off again before a text that continues alike. -/
theorem bite_rename {c : Char} {cs rest : List Char} (h : ContinueAlike (Token.bite c cs).rest rest)
    (hρ : ∀ x, (Token.bite c cs).piece.kind = some (.token (.id x)) → (ρ x).isProper = true) :
    ∃ d t, ((Token.bite c cs).piece.rename ρ).text = d :: t ∧ (c = d ∨ isLetter c = true ∧ isLetter d = true) ∧
      Token.bite d (t ++ rest) = ⟨((Token.bite c cs).piece.rename ρ).kind, d :: t, rest⟩ := by
  by_cases hname : ∃ x, (Token.bite c cs).piece.kind = some (.token (.id x))
  · obtain ⟨x, hx⟩ := hname
    obtain ⟨-, -, hc, hstop⟩ := Token.of_bite_name hx
    obtain ⟨d, t, hchars, hd, hbite⟩ := Token.bite_name (hρ x hx) ((h.any_head uniform_isNameChar).symm.trans hstop)
    rw [rename_of_name hx]
    exact ⟨d, t, hchars, .inr ⟨hc, hd⟩, hbite⟩
  · obtain ⟨t, hcs, hbite⟩ := Token.bite_alike h
    have htext : (Token.bite c cs).text = c :: t :=
      List.append_cancel_right ((Token.bite_append c cs).2.trans (congrArg (c :: ·) hcs))
    rw [rename_of_other fun x hx => hname ⟨x, hx⟩]
    exact ⟨c, t, htext, .inl rfl, hbite⟩

theorem continueAlike_rename : ∀ {fuel : Nat} {cs : List Char}, cs.length ≤ fuel → Renames ρ (piecesFrom fuel cs) →
    ContinueAlike cs (glue ((piecesFrom fuel cs).map (Piece.rename ρ)))
  | fuel, [], _, _ => by cases fuel <;> trivial
  | fuel + 1, c :: cs, hfuel, hρ => by
    obtain ⟨d, t, htext, halike, -⟩ := bite_rename (.refl _) (hρ _ List.mem_cons_self)
    rw [piecesFrom, List.map_cons, glue_cons, htext]
    exact halike

/-- **What results from other names consists of the pieces with these names.** -/
theorem piecesFrom_rename : ∀ {fuel : Nat} {cs : List Char}, cs.length ≤ fuel → Renames ρ (piecesFrom fuel cs) →
    ∀ {fuel' : Nat}, (glue ((piecesFrom fuel cs).map (Piece.rename ρ))).length ≤ fuel' →
    piecesFrom fuel' (glue ((piecesFrom fuel cs).map (Piece.rename ρ))) = (piecesFrom fuel cs).map (Piece.rename ρ)
  | fuel, [], _, _, fuel', _ => by cases fuel <;> cases fuel' <;> rfl
  | fuel + 1, c :: cs, hfuel, hρ, fuel', hfuel' => by
    have hrest : (Token.bite c cs).rest.length ≤ fuel :=
      Nat.le_trans (length_bite_rest c cs) (Nat.le_of_succ_le_succ hfuel)
    obtain ⟨hp, hρ⟩ := List.forall_mem_cons.1 hρ
    obtain ⟨d, t, htext, -, hbite⟩ := bite_rename (continueAlike_rename hrest hρ) hp
    rw [piecesFrom, List.map_cons, glue_cons, htext, List.cons_append] at hfuel' ⊢
    cases fuel' with
    | zero => cases hfuel'
    | succ fuel' =>
      rw [List.length_cons, List.length_append] at hfuel'
      rw [piecesFrom, hbite, ← htext]
      exact congrArg _ (piecesFrom_rename hrest hρ (by omega))

end

/-! ## The names in a source -/

/-- The name that a lexeme is. -/
def LexemeKind.name? : LexemeKind → Option Ident
  | .token (.id x) => some x
  | _ => none

/-- The names in a source. -/
def names (source : List Char) : List Ident := (Token.scan source).filterMap (·.kind.name?)

theorem mem_names {source : List Char} {x : Ident} :
    x ∈ names source ↔ ∃ p ∈ pieces source, p.kind = some (.token (.id x)) := by
  have hname : ∀ k : LexemeKind, k.name? = some x ↔ k = .token (.id x) := fun k => by
    unfold LexemeKind.name?
    split <;> simp_all
  simp only [names, List.mem_filterMap, hname, exists_lexeme_iff]

theorem piecesFrom_proper : ∀ {fuel : Nat} {cs : List Char} {p : Piece} {x : Ident}, p ∈ piecesFrom fuel cs →
    p.kind = some (.token (.id x)) → p.text = x.chars ∧ x.isProper = true
  | 0, _, _, _, h, _ | _ + 1, [], _, _, h, _ => (List.not_mem_nil h).elim
  | fuel + 1, c :: cs, p, x, h, hx => by
    rcases List.mem_cons.1 h with rfl | h
    · exact ⟨(Token.of_bite_name hx).1, (Token.of_bite_name hx).2.1⟩
    · exact piecesFrom_proper h hx

theorem isProper_of_mem_names {source : List Char} {x : Ident} (h : x ∈ names source) : x.isProper = true := by
  obtain ⟨p, hp, hx⟩ := mem_names.1 h
  exact (piecesFrom_proper hp hx).2

/-- A name is written on one line. -/
theorem count_newline_of_isProper {x : Ident} (h : x.isProper = true) : x.chars.count '\n' = 0 := by
  obtain ⟨c, cs, hx, hc, hcs, -⟩ := Ident.isProper_iff.1 h
  rw [hx]
  refine List.count_eq_zero.2 fun hmem => ?_
  rcases List.mem_cons.1 hmem with rfl | hmem
  · cases hc
  · cases hcs _ hmem

/-! ## What is read -/

theorem token_rename (ρ : Ident → Ident) (p : Piece) : (p.rename ρ).token? = p.token?.map (Token.relabel ⟨id, ρ⟩) := by
  obtain ⟨kind, text⟩ := p
  rcases kind with _ | (_ | _ | _) | _ | _ <;> rfl

theorem linedPieces_rename {ρ : Ident → Ident} : ∀ (ps : List Piece) (line : Nat),
    (∀ p ∈ ps, (p.rename ρ).text.count '\n' = p.text.count '\n') →
    linedPieces line (ps.map (Piece.rename ρ)) = (linedPieces line ps).map (LinedToken.relabel ⟨id, ρ⟩)
  | [], _, _ => rfl
  | p :: ps, line, h => by
    obtain ⟨hp, hps⟩ := List.forall_mem_cons.1 h
    rw [List.map_cons, linedPieces, linedPieces, hp, linedPieces_rename ps _ hps, token_rename, List.map_append]
    cases p.token? <;> rfl

section

variable {source : List Char} {ρ : Ident → Ident} (hρ : ∀ x ∈ names source, (ρ x).isProper = true)

include hρ

theorem pieces_renameSource : pieces (renameSource ρ source) = (pieces source).map (Piece.rename ρ) :=
  piecesFrom_rename (Nat.le_refl _) (fun p hp x hx => hρ x (mem_names.2 ⟨p, hp, hx⟩)) (Nat.le_refl _)

/-- **A source has the same tokens on the same lines under other names.** -/
theorem linedTokens_rename :
    linedTokens (renameSource ρ source) = (linedTokens source).map (LinedToken.relabel ⟨id, ρ⟩) := by
  rw [linedTokens_eq, linedTokens_eq, pieces_renameSource hρ]
  refine linedPieces_rename _ _ fun p hp => ?_
  by_cases hname : ∃ x, p.kind = some (.token (.id x))
  · obtain ⟨x, hx⟩ := hname
    obtain ⟨htext, hproper⟩ := piecesFrom_proper hp hx
    rw [rename_of_name hx, htext, count_newline_of_isProper hproper,
      count_newline_of_isProper (hρ x (mem_names.2 ⟨p, hp, hx⟩))]
  · rw [rename_of_other fun x hx => hname ⟨x, hx⟩]

/-- What is no token stays no token. -/
theorem invalid_rename : (∀ l ∈ Token.scan (renameSource ρ source), l.kind ≠ .invalid) ↔
    ∀ l ∈ Token.scan source, l.kind ≠ .invalid := by
  have hkinds : ∀ s : List Char, (∀ l ∈ Token.scan s, l.kind ≠ .invalid) ↔
      ∀ p ∈ pieces s, p.kind ≠ some .invalid := fun s => by
    simpa using not_congr (@exists_lexeme_iff s .invalid)
  rw [hkinds, hkinds, pieces_renameSource hρ, List.forall_mem_map]
  refine forall₂_congr fun p _ => not_congr ?_
  unfold Piece.rename
  split <;> simp_all

end

end FoolLang
