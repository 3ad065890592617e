import FoolLang.Proofs.OperandEnds
/-!
# Reports — what is said of a source that is no program

The first lexeme that is no token is reported, or else the first token with which no sentence goes on, together with
the kinds of tokens that could have stood there (`parse_reports`).
-/
namespace FoolLang

/-- A lexeme that is a token, with its span. -/
def Lexeme.spot? (l : Lexeme) : Option Spot :=
  match l.kind with
  | .token t => some ⟨t, l.start, l.stop⟩
  | _ => none

/-- The tokens of a source with their spans. -/
def sourceSpots (source : List Char) : List Spot := (Token.scan source).filterMap Lexeme.spot?

/-- What is listed after `pre` when `bad` cannot follow, or when the input ends: each kind once, in their order, and
those only that go on to a sentence.  A token that ends expressions somewhere settles the operand before it. -/
structure Listing (pre : List Token) (bad : Option Token) (listed : List Terminal) : Prop where
  ordered : listed.Sublist Terminal.all
  nodup : listed.Nodup
  settled : EndsOperand pre → (∃ m, bad = some (.mark m) ∧ m.endsExpr = true) → ∀ t : Token, t.kind ∈ listed ↔
    t = .mark .and ∨ t = .mark .or ∨ (∃ m, t = .mark m ∧ m.endsExpr = true) ∧ Viable (pre ++ [t])
  viable : ¬ (EndsOperand pre ∧ ∃ m, bad = some (.mark m) ∧ m.endsExpr = true) → ∀ t : Token, t.kind ∈ listed ↔
    Viable (pre ++ [t])

theorem Terminal.nodup_all : Terminal.all.Nodup := by decide

theorem Terminal.mem_all (t : Terminal) : t ∈ Terminal.all := by
  cases t with
  | mark m => cases m <;> decide
  | _ => decide

theorem isLoose_kind (t : Token) : t.kind.isLoose = true ↔
    t = .mark .and ∨ t = .mark .or ∨ ∃ m, t = .mark m ∧ m.endsExpr = true := by
  cases t with
  | mark m => cases m <;> simp [Token.kind, Terminal.isLoose, Mark.endsExpr]
  | _ => simp [Token.kind, Terminal.isLoose]

section

variable {us : List LinedToken} {d : Draft}

/-- A draft takes the kinds of tokens with which a sentence goes on. -/
theorem kind_mem_takes (hd : Draft.start.advance us = some d) (t : Token) :
    t.kind ∈ Terminal.all.filter d.takes ↔ Viable (us.map LinedToken.token ++ [t]) := by
  rw [viable_snoc_iff hd t 0, ← d.takes_kind t 0, List.mem_filter, and_iff_right t.kind.mem_all]

theorem expected_sublist (d : Draft) (bad : Option Token) :
    (d.expected bad).Sublist (Terminal.all.filter d.takes) := by
  unfold Draft.expected
  split
  · dsimp only
    split
    · exact List.filter_sublist
    · exact List.Sublist.refl _
  · exact List.Sublist.refl _

theorem expected_of_open {bad : Option Token}
    (hno : ¬ (d.atOperandEnd = true ∧ ∃ m, bad = some (.mark m) ∧ m.endsExpr = true)) :
    d.expected bad = Terminal.all.filter d.takes := by
  unfold Draft.expected
  split
  · rename_i m
    have hnot : (d.atOperandEnd && m.endsExpr) = false := by
      rw [Bool.eq_false_iff]
      intro h
      rw [Bool.and_eq_true] at h
      exact hno ⟨h.1, m, rfl, h.2⟩
    simp only [hnot]
    rfl
  · rfl

/-- The loosest operators go on after every complete operand. -/
theorem viable_operator (hd : Draft.start.advance us = some d) (hend : d.atOperandEnd = true) {m : Mark} {op : BinOp}
    (hop : m.binOp? = some op) : Viable (us.map LinedToken.token ++ [.mark m]) := by
  obtain ⟨_, _, hstep⟩ := Draft.step_of_atOperandEnd hend hop 0
  rw [viable_snoc_iff hd _ 0, hstep]
  rfl

theorem listing_expected (hd : Draft.start.advance us = some d) (bad : Option Token) :
    Listing (us.map LinedToken.token) bad (d.expected bad) := by
  have hsub := expected_sublist d bad
  refine ⟨hsub.trans List.filter_sublist, hsub.nodup (Terminal.nodup_all.filter _), ?_, ?_⟩
  · rintro hends ⟨m, rfl, hm⟩ t
    have hend := (endsOperand_iff hd).1 hends
    have hlisted : d.expected (some (.mark m)) = (Terminal.all.filter d.takes).filter Terminal.isLoose := by
      simp [Draft.expected, hend, hm]
    rw [hlisted, List.mem_filter, kind_mem_takes hd, isLoose_kind]
    constructor
    · rintro ⟨h, rfl | rfl | hm⟩
      · exact .inl rfl
      · exact .inr (.inl rfl)
      · exact .inr (.inr ⟨hm, h⟩)
    · rintro (rfl | rfl | ⟨hm, h⟩)
      · exact ⟨viable_operator hd hend rfl, .inl rfl⟩
      · exact ⟨viable_operator hd hend rfl, .inr (.inl rfl)⟩
      · exact ⟨h, .inr (.inr hm)⟩
  · intro hno t
    rw [endsOperand_iff hd] at hno
    rw [expected_of_open hno, kind_mem_takes hd]

end

/-! ## Reading up to an error -/

theorem spots_error : ∀ {pre post : List Lexeme} {l : Lexeme}, (∀ x ∈ pre, x.kind ≠ .invalid ∧ x.kind ≠ .eof) →
    l.kind = .invalid → spots (pre ++ l :: post) = .error (.invalid l.text l.start l.stop)
  | [], post, l, _, hl => by simp [spots, hl]
  | x :: pre, post, l, hpre, hl => by
    obtain ⟨⟨hinv, heof⟩, hpre⟩ := List.forall_mem_cons.1 hpre
    rw [List.cons_append, spots, spots_error hpre hl]
    split
    · rfl
    · exact (hinv ‹_›).elim
    · exact (heof ‹_›).elim

theorem spots_eq : ∀ {ls : List Lexeme}, (∀ x ∈ ls, x.kind ≠ .invalid ∧ x.kind ≠ .eof) →
    spots ls = .ok (ls.filterMap Lexeme.spot?)
  | [], _ => rfl
  | x :: ls, h => by
    obtain ⟨⟨hinv, heof⟩, h⟩ := List.forall_mem_cons.1 h
    rw [spots, spots_eq h, List.filterMap_cons, Lexeme.spot?]
    split
    · rename_i t ht
      simp [ht, Except.map]
    · exact (hinv ‹_›).elim
    · exact (heof ‹_›).elim

namespace Draft

variable {breaks : List Nat} {length : Nat}

/-- A token with its line. -/
def lined (breaks : List Nat) (s : Spot) : LinedToken := ⟨s.token, (Position.ofOffset breaks s.start).line⟩

@[simp] theorem map_token_lined (ss : List Spot) :
    (ss.map (lined breaks)).map LinedToken.token = ss.map Spot.token := by
  rw [List.map_map]
  rfl

theorem read_end : ∀ {ss : List Spot} {last : Nat} {d d' : Draft}, d.advance (ss.map (lined breaks)) = some d' →
    (∀ p, d' ≠ .finished p) →
    read breaks length last ss d =
      .error (.endOfInput (d'.expected none) ((ss.getLast?.map Spot.stop).getD last) length)
  | [], last, d, d', h, hne => by
    cases h
    cases d with
    | finished p => exact (hne p rfl).elim
    | _ => rfl
  | s :: ss, last, d, d', h, hne => by
    rw [List.map_cons, advance_cons] at h
    obtain ⟨next, hnext, h⟩ := Option.bind_eq_some_iff.1 h
    rw [read]
    simp only [show d.step s.token (Position.ofOffset breaks s.start).line = some next from hnext]
    rw [read_end h hne, List.getLast?_cons]
    cases ss.getLast? <;> rfl

theorem read_stuck {s : Spot} {post : List Spot} {d' : Draft} : ∀ {pre : List Spot} {last : Nat} {d : Draft},
    d.advance (pre.map (lined breaks)) = some d' →
    d'.step s.token (Position.ofOffset breaks s.start).line = none →
    read breaks length last (pre ++ s :: post) d =
      .error (.unexpected s.token (d'.expected (some s.token)) s.start s.stop)
  | [], last, d, h, hs => by
    cases h
    rw [List.nil_append, read, hs]
  | s' :: pre, last, d, h, hs => by
    rw [List.map_cons, advance_cons] at h
    obtain ⟨next, hnext, h⟩ := Option.bind_eq_some_iff.1 h
    rw [List.cons_append, read]
    simp only [show d.step s'.token (Position.ofOffset breaks s'.start).line = some next from hnext]
    exact read_stuck h hs

/-- A draft takes all tokens, or there is a first one that it does not take. -/
theorem exists_stuck {ss : List Spot} {d : Draft} (h : d.advance (ss.map (lined breaks)) = none) :
    ∃ pre s post d', ss = pre ++ s :: post ∧ d.advance (pre.map (lined breaks)) = some d' ∧
      d'.step s.token (Position.ofOffset breaks s.start).line = none := by
  induction ss generalizing d with
  | nil => cases h
  | cons s ss ih =>
    rw [List.map_cons, advance_cons] at h
    cases hs : d.step s.token (Position.ofOffset breaks s.start).line with
    | none => exact ⟨[], s, ss, d, rfl, rfl, hs⟩
    | some next =>
      rw [show d.step (lined breaks s).token (lined breaks s).line = some next from hs] at h
      obtain ⟨pre, s', post, d', rfl, hd', hs'⟩ := ih h
      refine ⟨s :: pre, s', post, d', rfl, ?_, hs'⟩
      rw [List.map_cons, advance_cons, show d.step (lined breaks s).token (lined breaks s).line = some next from hs]
      exact hd'

end Draft

/-! ## Sources -/

/-- A body after a `let` that introduces nothing. -/
def EmptyLet (ts : List Token) : Prop := ∃ es e, ExprText es e ∧
  ts = .mark .kwLet :: .mark .kwIn :: (es.map LinedToken.token ++ [.mark .semicolon])

theorem declares_or_empty (p : Program) : p.Declares ∨ ∃ e, p = .letIn [] [] e := by
  cases p with
  | expr e => exact .inl trivial
  | letIn cs ds e =>
    cases cs with
    | cons c cs => exact .inl (.inl (List.cons_ne_nil c cs))
    | nil =>
      cases ds with
      | cons d ds => exact .inl (.inr (List.cons_ne_nil d ds))
      | nil => exact .inr ⟨e, rfl⟩

theorem Sentence.emptyLet {us : List LinedToken} {e : Expr} (h : Sentence us (.letIn [] [] e)) :
    EmptyLet (us.map LinedToken.token) := by
  generalize hp : Program.letIn [] [] e = p at h
  cases h with
  | expr he => cases hp
  | letIn hcs hds he =>
    cases hp
    cases hcs
    cases hds
    exact ⟨_, _, he, by simp [Mark.on]⟩

/-- Tokens that are those of a sentence are read to the end, whatever lines they stand on. -/
theorem advance_of_sentence {us vs : List LinedToken} {p : Program} (h : Sentence vs p)
    (hmap : us.map LinedToken.token = vs.map LinedToken.token) :
    ∃ q, Draft.start.advance us = some (.finished q) ∧ q.relabel .oneLine = p.relabel .oneLine := by
  have hread : Draft.start.advance vs = some (.finished p) := Draft.rest_iff_advance.1 h
  have hsame := Draft.advance_congr hmap .start
  rw [hread] at hsame
  obtain ⟨d, hd, heq⟩ := Option.map_eq_some_iff.1 hsame
  cases d with
  | finished q => exact ⟨q, hd, Draft.finished.inj heq⟩
  | _ => cases heq

theorem parse_of_read_empty {source : List Char} {ss : List Spot} {e : Expr}
    (hss : spots (Token.scan source) = .ok ss)
    (hread : Draft.read (lineBreaks 0 source) (Text.byteLength source) 0 ss .start = .ok (.letIn [] [] e)) :
    parse source = .error (.emptyLet ((ss.head?.map Spot.start).getD 0)) := by
  unfold parse
  rw [hss]
  change (Draft.read (lineBreaks 0 source) (Text.byteLength source) 0 ss .start >>= _) = _
  rw [hread]
  rfl

section

variable {source : List Char}

theorem parse_of_invalid {pre post : List Lexeme} {l : Lexeme} (hscan : Token.scan source = pre ++ l :: post)
    (hpre : ∀ x ∈ pre, x.kind ≠ .invalid) (hl : l.kind = .invalid) :
    parse source = .error (.invalid l.text l.start l.stop) := by
  have hss : spots (Token.scan source) = .error (.invalid l.text l.start l.stop) := by
    rw [hscan]
    refine spots_error (fun x hx => ⟨hpre x hx, scan_ne_eof source.length 0 source x ?_⟩) hl
    rw [show Token.scanFrom source.length 0 source = pre ++ l :: post from hscan]
    exact List.mem_append_left _ hx
  rw [parse, hss]
  rfl

theorem spots_scan (hinv : ∀ l ∈ Token.scan source, l.kind ≠ .invalid) :
    spots (Token.scan source) = .ok (sourceSpots source) :=
  spots_eq fun x hx => ⟨hinv x hx, scan_ne_eof source.length 0 source x hx⟩

theorem read_of_advance {breaks : List Nat} {length : Nat} {ss : List Spot} {p : Program}
    (h : Draft.start.advance (ss.map (Draft.lined breaks)) = some (.finished p)) :
    Draft.read breaks length 0 ss .start = .ok p :=
  read_iff.2 (Draft.rest_iff_advance.2 h)

variable (hinv : ∀ l ∈ Token.scan source, l.kind ≠ .invalid)

include hinv

/-- A `let` without declarations is reported where the source begins with it. -/
theorem parse_of_emptyLet (h : EmptyLet ((sourceSpots source).map Spot.token)) :
    ∃ s, (sourceSpots source).head? = some s ∧ parse source = .error (.emptyLet s.start) := by
  obtain ⟨es, e, he, hts⟩ := h
  have hsentence := @Sentence.letIn 0 0 0 [] [] es [] [] e .nil .nil he
  obtain ⟨q, hq, hrel⟩ := advance_of_sentence hsentence
    ((@Draft.map_token_lined (lineBreaks 0 source) (sourceSpots source)).trans (by simpa [Mark.on] using hts))
  obtain ⟨e', rfl⟩ : ∃ e', q = .letIn [] [] e' := by
    cases q with
    | expr e' => cases hrel
    | letIn cs ds e' =>
      simp only [Program.relabel, List.map_nil, Program.letIn.injEq, List.map_eq_nil_iff] at hrel
      obtain ⟨rfl, rfl, -⟩ := hrel
      exact ⟨e', rfl⟩
  have hparse := parse_of_read_empty (spots_scan hinv) (read_of_advance hq)
  cases hhead : sourceSpots source with
  | nil => rw [hhead] at hts; cases hts
  | cons s rest => exact ⟨s, rfl, by rw [hparse, hhead]; rfl⟩

/-- Every other sentence is a program. -/
theorem parse_of_sentence {us : List LinedToken} {p : Program} (hsentence : Sentence us p)
    (hus : us.map LinedToken.token = (sourceSpots source).map Spot.token)
    (hne : ¬ EmptyLet ((sourceSpots source).map Spot.token)) : ∃ p, parse source = .ok p := by
  obtain ⟨q, hq, -⟩ := advance_of_sentence hsentence
    ((@Draft.map_token_lined (lineBreaks 0 source) (sourceSpots source)).trans hus.symm)
  refine ⟨q, (parse_of_read (spots_scan hinv) (read_of_advance hq) q).2 ⟨rfl, (declares_or_empty q).resolve_right ?_⟩⟩
  rintro ⟨e, rfl⟩
  have hempty := (Draft.rest_iff_advance (d := .start).2 hq : Sentence _ _).emptyLet
  rw [Draft.map_token_lined] at hempty
  exact hne hempty

/-- What is no sentence fails at the first token with which no sentence goes on, or else at its end. -/
theorem parse_of_no_sentence
    (hno : ¬ ∃ us p, Sentence us p ∧ us.map LinedToken.token = (sourceSpots source).map Spot.token) :
    (Viable ((sourceSpots source).map Spot.token) ∧
      ∃ listed, Listing ((sourceSpots source).map Spot.token) none listed ∧
        parse source = .error (.endOfInput listed (((sourceSpots source).getLast?.map Spot.stop).getD 0)
          (Text.byteLength source))) ∨
    ∃ pre s post listed, sourceSpots source = pre ++ s :: post ∧ Viable (pre.map Spot.token) ∧
      ¬ Viable (pre.map Spot.token ++ [s.token]) ∧ Listing (pre.map Spot.token) (some s.token) listed ∧
      parse source = .error (.unexpected s.token listed s.start s.stop) := by
  have hss := spots_scan hinv
  cases hd : Draft.start.advance ((sourceSpots source).map (Draft.lined (lineBreaks 0 source))) with
  | some d =>
    have hlisting := listing_expected hd none
    have hviable := viable_iff.2 ⟨d, hd⟩
    rw [Draft.map_token_lined] at hlisting hviable
    refine .inl ⟨hviable, _, hlisting, parse_of_read_error hss (Draft.read_end hd ?_)⟩
    rintro p rfl
    exact hno ⟨_, p, Draft.rest_iff_advance.2 hd, Draft.map_token_lined _⟩
  | none =>
    obtain ⟨pre, s, post, d, hpre, hd, hstep⟩ := Draft.exists_stuck hd
    have hlisting := listing_expected hd (some s.token)
    have hviable := viable_iff.2 ⟨d, hd⟩
    have hnext := viable_snoc_iff hd s.token (Position.ofOffset (lineBreaks 0 source) s.start).line
    rw [Draft.map_token_lined] at hlisting hviable hnext
    refine .inr ⟨pre, s, post, _, hpre, hviable, ?_, hlisting, parse_of_read_error hss ?_⟩
    · rw [hnext, hstep]
      nofun
    · rw [hpre]
      exact Draft.read_stuck hd hstep

end

/-- **What is reported.**  The first lexeme that is no token, if there is one.  Otherwise, a `let` without declarations
where that is all there is to say; every other sentence is accepted; and if the tokens are no sentence, the first one
with which no sentence goes on, or the end of the input if some sentence goes on after all of them.  Listed are then
the kinds of tokens with which a sentence does go on, but only the loosest of them where an operand is complete and
the token ends expressions elsewhere. -/
theorem parse_reports (source : List Char) :
    (∀ pre l post, Token.scan source = pre ++ l :: post → (∀ x ∈ pre, x.kind ≠ .invalid) → l.kind = .invalid →
      parse source = .error (.invalid l.text l.start l.stop)) ∧
    ((∀ l ∈ Token.scan source, l.kind ≠ .invalid) →
      let ss := sourceSpots source
      let ts := ss.map Spot.token
      (EmptyLet ts → ∃ s, ss.head? = some s ∧ parse source = .error (.emptyLet s.start)) ∧
      ((∃ us p, Sentence us p ∧ us.map LinedToken.token = ts) → ¬ EmptyLet ts → ∃ p, parse source = .ok p) ∧
      ((¬ ∃ us p, Sentence us p ∧ us.map LinedToken.token = ts) →
        (Viable ts ∧ ∃ listed, Listing ts none listed ∧
          parse source = .error (.endOfInput listed ((ss.getLast?.map Spot.stop).getD 0) (Text.byteLength source))) ∨
        ∃ pre s post listed, ss = pre ++ s :: post ∧ Viable (pre.map Spot.token) ∧
          ¬ Viable (pre.map Spot.token ++ [s.token]) ∧ Listing (pre.map Spot.token) (some s.token) listed ∧
          parse source = .error (.unexpected s.token listed s.start s.stop))) := by
  refine ⟨fun pre l post hscan hpre hl => parse_of_invalid hscan hpre hl, fun hinv => ?_⟩
  refine ⟨parse_of_emptyLet hinv, ?_, parse_of_no_sentence hinv⟩
  rintro ⟨us, p, hsentence, hus⟩
  exact parse_of_sentence hinv hsentence hus

/-- A source with a parenthesis too many, after a complete operand. -/
def strayCloser : List Char := "x)".toList

theorem strayCloser_reported : parse strayCloser =
      .error (.unexpected (.mark .rparen) [.mark .and, .mark .or, .mark .semicolon] 1 2) ∧
    Listing [.id ⟨['x']⟩] (some (.mark .rparen)) [.mark .and, .mark .or, .mark .semicolon] := by
  have hparse : parse strayCloser =
      .error (.unexpected (.mark .rparen) [.mark .and, .mark .or, .mark .semicolon] 1 2) := rfl
  have hspots : sourceSpots strayCloser = [⟨.id ⟨['x']⟩, 0, 1⟩, ⟨.mark .rparen, 1, 2⟩] := rfl
  refine ⟨hparse, ?_⟩
  obtain ⟨-, hsentence, hno⟩ := (parse_reports strayCloser).2 (by decide)
  rw [hspots, hparse] at hsentence hno
  have hnot : ¬ EmptyLet [.id ⟨['x']⟩, .mark .rparen] := by
    rintro ⟨es, e, -, h⟩
    cases h
  rcases hno fun h => nomatch hsentence h hnot with ⟨-, listed, -, h⟩ | ⟨pre, s, post, listed, hss, -, -, hlisting, h⟩
  · cases h
  · simp only [Except.error.injEq, ParseError.unexpected.injEq] at h
    obtain ⟨htoken, rfl, -, -⟩ := h
    rcases pre with _ | ⟨a, _ | ⟨b, pre⟩⟩
    · cases hss
      cases htoken
    · cases hss
      exact hlisting
    · simp at hss

end FoolLang
