import FoolLang.Proofs.Renaming
import FoolLang.Proofs.Reports
import FoolLang.Tree.Outline
/-!
# Layouts — blanks, comments and line breaks do not matter

Two sources with the same tokens are read the same way, each token on the line where it stands in its source.  Lines
are passed on to the tree and from the tree to the errors, and nothing else looks at them; a program is shown and
translated without them (`layout_does_not_matter`).
-/
namespace FoolLang

/-! ## What is shown of a program -/

section Shown

variable {r : Relabel}

mutual

/-- A type has names in it but no lines. -/
theorem Ty.relabel_same (hr : ∀ x, r.name x = x) : ∀ t : Ty, t.relabel r = t
  | .int | .bool | .null => rfl
  | .ref c => congrArg Ty.ref (hr c)
  | .function s => congrArg Ty.function (s.relabel_same hr)
  | .method s => congrArg Ty.method (s.relabel_same hr)
  | .cls l => congrArg Ty.cls (l.relabel_same hr)

theorem Signature.relabel_same (hr : ∀ x, r.name x = x) : ∀ s : Signature, s.relabel r = s
  | ⟨ps, t⟩ => congrArg₂ Signature.mk (relabelTypes_same hr ps) (t.relabel_same hr)

theorem Layout.relabel_same (hr : ∀ x, r.name x = x) : ∀ l : Layout, l.relabel r = l
  | ⟨fs, ms⟩ => congrArg₂ Layout.mk (relabelTypes_same hr fs) (relabelSignatures_same hr ms)

theorem relabelTypes_same (hr : ∀ x, r.name x = x) : ∀ ts : List Ty, relabelTypes r ts = ts
  | [] => rfl
  | t :: ts => congrArg₂ List.cons (t.relabel_same hr) (relabelTypes_same hr ts)

theorem relabelSignatures_same (hr : ∀ x, r.name x = x) : ∀ ss : List Signature, relabelSignatures r ss = ss
  | [] => rfl
  | s :: ss => congrArg₂ List.cons (s.relabel_same hr) (relabelSignatures_same hr ss)

end

variable (hr : ∀ x, r.name x = x)

include hr

theorem Entry.relabel_same (e : Entry) : e.relabel r = e := by
  rw [Entry.relabel, Ty.relabel_same hr]

theorem relabel_entry_same (e : Option Entry) : e.map (Entry.relabel r) = e := by
  cases e with
  | none => rfl
  | some e => exact congrArg some (e.relabel_same hr)

theorem Use.relabel_same (u : Use) : u.relabel r = u := by
  rw [Use.relabel, hr, relabel_entry_same hr]

omit hr in
mutual

theorem Expr.outline_relabel (hr : ∀ x, r.name x = x) : ∀ (e : Expr) (d : Nat), (e.relabel r).outline d = e.outline d
  | .int _ _, _ | .bool _ _, _ | .null _, _ => rfl
  | .binary _ _ a b, d => by
    rw [Expr.relabel, Expr.outline, Expr.outline, a.outline_relabel hr, b.outline_relabel hr]
  | .not _ a, d => by rw [Expr.relabel, Expr.outline, Expr.outline, a.outline_relabel hr]
  | .cond _ c t e, d => by
    rw [Expr.relabel, Expr.outline, Expr.outline, c.outline_relabel hr, t.outline_relabel hr, e.outline_relabel hr]
  | .print _ a, d => by rw [Expr.relabel, Expr.outline, Expr.outline, a.outline_relabel hr]
  | .id _ u, d => by rw [Expr.relabel, Expr.outline, Expr.outline, u.relabel_same hr]
  | .call _ u args, d => by
    rw [Expr.relabel, Expr.outline, Expr.outline, u.relabel_same hr, outlineArgs_relabel hr args]
  | .send _ u m e args, d => by
    rw [Expr.relabel, Expr.outline, Expr.outline, u.relabel_same hr, hr, relabel_entry_same hr,
      outlineArgs_relabel hr args]
  | .new _ c e args, d => by
    rw [Expr.relabel, Expr.outline, Expr.outline, hr, relabel_entry_same hr, outlineArgs_relabel hr args]

theorem outlineArgs_relabel (hr : ∀ x, r.name x = x) :
    ∀ (es : List Expr) (d : Nat), outlineArgs d (relabelArgs r es) = outlineArgs d es
  | [], _ => rfl
  | e :: es, d => by rw [relabelArgs, outlineArgs, outlineArgs, e.outline_relabel hr, outlineArgs_relabel hr es]

end

theorem OutlineLine.map_ofParam_relabel (d : Nat) (ps : List Param) :
    (ps.map (Param.relabel r)).map (OutlineLine.ofParam d) = ps.map (OutlineLine.ofParam d) := by
  rw [List.map_map]
  refine List.map_congr_left fun p _ => ?_
  simp only [Function.comp_apply, Param.relabel, ofParam, hr, Ty.relabel_same hr]

theorem signatureOf_relabel_same (ps : List Param) (ret : Ty) :
    signatureOf (ps.map (Param.relabel r)) (ret.relabel r) = signatureOf ps ret := by
  rw [signatureOf_relabel, Signature.relabel_same hr]

omit hr in
mutual

theorem Dec.outline_relabel (hr : ∀ x, r.name x = x) : ∀ (x : Dec) (d : Nat), (x.relabel r).outline d = x.outline d
  | .var _ x ty v, d => by
    rw [Dec.relabel, Dec.outline, Dec.outline, hr, Ty.relabel_same hr, Expr.outline_relabel hr]
  | .func _ x ret ps ls body, d => by
    rw [Dec.relabel, Dec.outline, Dec.outline, hr, signatureOf_relabel_same hr, OutlineLine.map_ofParam_relabel hr,
      outlineLocals_relabel hr ls, Expr.outline_relabel hr]

theorem outlineLocals_relabel (hr : ∀ x, r.name x = x) :
    ∀ (xs : List Dec) (d : Nat), outlineLocals d (relabelLocals r xs) = outlineLocals d xs
  | [], _ => rfl
  | x :: xs, d => by rw [relabelLocals, outlineLocals, outlineLocals, x.outline_relabel hr, outlineLocals_relabel hr xs]

end

theorem outlineLocals_map (xs : List Dec) (d : Nat) :
    outlineLocals d (xs.map (Dec.relabel r)) = outlineLocals d xs := by
  rw [← relabelLocals_eq, outlineLocals_relabel hr]

theorem Method.outline_relabel (d : Nat) (m : Method) : (m.relabel r).outline d = m.outline d := by
  rw [outline, outline, Method.signature_relabel, Signature.relabel_same hr]
  simp only [Method.relabel, hr, OutlineLine.map_ofParam_relabel hr, outlineLocals_map hr, Expr.outline_relabel hr]

theorem Class.heading_relabel (c : Class) : (c.relabel r).heading = c.heading := by
  obtain ⟨line, id, super, fields, methods, layout, superEntry⟩ := c
  cases super with
  | none => simp only [relabel, heading, Option.map_none, hr]
  | some s => simp only [relabel, heading, Option.map_some, hr]

theorem Class.outline_relabel (d : Nat) (c : Class) : (c.relabel r).outline d = c.outline d := by
  have hfields :
      (c.relabel r).fields.map (OutlineLine.ofField (d + 1)) = c.fields.map (OutlineLine.ofField (d + 1)) := by
    rw [Class.relabel, List.map_map]
    refine List.map_congr_left fun f _ => ?_
    simp only [Function.comp_apply, Field.relabel, OutlineLine.ofField, hr, Ty.relabel_same hr]
  rw [outline, outline, heading_relabel hr, hfields]
  simp only [Class.relabel, List.flatMap_map, Method.outline_relabel hr]

/-- **Lines are not shown.** -/
theorem Program.render_relabel (p : Program) : (p.relabel r).render = p.render := by
  unfold render
  cases p with
  | expr e => simp only [relabel, outline, Expr.outline_relabel hr]
  | letIn cs ds e =>
    simp only [relabel, outline, List.flatMap_map, Class.outline_relabel hr, outlineLocals_map hr,
      Expr.outline_relabel hr]

end Shown

/-! ## Two readings -/

/-- Where an error stands in a source: on the token with a number, or at the end of the input. -/
inductive ParseError.StandsAt (source : List Char) : ParseError → Option Nat → Prop
  | unexpected {i : Nat} {s : Spot} (h : (sourceSpots source)[i]? = some s) (listed : List Terminal) :
    StandsAt source (.unexpected s.token listed s.start s.stop) (some i)
  | emptyLet {s : Spot} (h : (sourceSpots source)[0]? = some s) : StandsAt source (.emptyLet s.start) (some 0)
  | endOfInput (listed : List Terminal) : StandsAt source
    (.endOfInput listed (((sourceSpots source).getLast?.map Spot.stop).getD 0) (Text.byteLength source)) none

namespace Draft

/-- What could have followed is a matter of the tokens before it. -/
theorem expected_congr {d d' : Draft} (h : d.relabel .oneLine = d'.relabel .oneLine) (bad : Option Token) :
    d.expected bad = d'.expected bad := by
  have htakes : ∀ (d : Draft) (t : Terminal), (d.relabel .oneLine).takes t = d.takes t := fun d t => by
    have hsample : t.sample.relabel .oneLine = t.sample := by cases t <;> rfl
    have hstep := step_relabel (r := .oneLine) t.sample 0 d
    rw [hsample] at hstep
    exact (congrArg Option.isSome hstep).trans Option.isSome_map
  have htakes' : d.takes = d'.takes := funext fun t => by rw [← htakes, h, htakes]
  have hend : d.atOperandEnd = d'.atOperandEnd := by
    rw [← atOperandEnd_relabel .oneLine, h, atOperandEnd_relabel]
  simp only [expected, htakes', hend]

/-- A draft that takes no token on one line takes it on no other. -/
theorem step_none_congr {d d' : Draft} (h : d.relabel .oneLine = d'.relabel .oneLine) {t : Token} {l l' : Nat}
    (hstep : d.step t l = none) : d'.step t l' = none := by
  have hnone : ∀ (d : Draft) (l : Nat), d.step t l = none ↔ (d.relabel .oneLine).step (t.relabel .oneLine) 0 = none :=
    fun d l => by rw [show (0 : Nat) = Relabel.oneLine.line l from rfl, step_relabel, Option.map_eq_none_iff]
  rw [hnone, ← h, ← hnone]
  exact hstep

/-- **Two readings of the same tokens** come to the same tree up to lines, or stop at the same token or at the end of
both, where the same could have followed. -/
theorem read_congr {breaks₁ breaks₂ : List Nat} {length₁ length₂ : Nat} {ss₁ ss₂ : List Spot}
    (h : ss₁.map Spot.token = ss₂.map Spot.token) :
    (∃ p₁ p₂, read breaks₁ length₁ 0 ss₁ .start = .ok p₁ ∧ read breaks₂ length₂ 0 ss₂ .start = .ok p₂ ∧
      p₁.relabel .oneLine = p₂.relabel .oneLine) ∨
    (∃ (i : Nat) (s₁ s₂ : Spot) (listed : List Terminal), ss₁[i]? = some s₁ ∧ ss₂[i]? = some s₂ ∧
      s₁.token = s₂.token ∧
      read breaks₁ length₁ 0 ss₁ .start = .error (.unexpected s₁.token listed s₁.start s₁.stop) ∧
      read breaks₂ length₂ 0 ss₂ .start = .error (.unexpected s₂.token listed s₂.start s₂.stop)) ∨
    ∃ listed,
      read breaks₁ length₁ 0 ss₁ .start = .error (.endOfInput listed ((ss₁.getLast?.map Spot.stop).getD 0) length₁) ∧
      read breaks₂ length₂ 0 ss₂ .start =
        .error (.endOfInput listed ((ss₂.getLast?.map Spot.stop).getD 0) length₂) := by
  have hadvance : ∀ {us vs : List Spot}, us.map Spot.token = vs.map Spot.token →
      (start.advance (us.map (lined breaks₁))).map (Draft.relabel .oneLine) =
        (start.advance (vs.map (lined breaks₂))).map (Draft.relabel .oneLine) := fun huv =>
    advance_congr (by rw [map_token_lined, map_token_lined, huv]) .start
  cases hd₁ : start.advance (ss₁.map (lined breaks₁)) with
  | some d₁ =>
    have hd := hadvance h
    rw [hd₁, Option.map_some, eq_comm, Option.map_eq_some_iff] at hd
    obtain ⟨d₂, hd₂, hrel⟩ := hd
    by_cases hfin : ∃ p₁, d₁ = .finished p₁
    · obtain ⟨p₁, rfl⟩ := hfin
      obtain ⟨p₂, rfl, hp⟩ := relabel_finished.1 hrel
      exact .inl ⟨p₁, p₂, read_of_advance hd₁, read_of_advance hd₂, hp⟩
    · have hfin₁ : ∀ p, d₁ ≠ .finished p := fun p hp => hfin ⟨p, hp⟩
      have hfin₂ : ∀ p, d₂ ≠ .finished p := fun p hp => by
        subst hp
        obtain ⟨q, hq, -⟩ := relabel_finished.1 hrel.symm
        exact hfin ⟨q, hq⟩
      have hlisted := expected_congr hrel none
      exact .inr (.inr ⟨d₁.expected none, read_end hd₁ hfin₁, hlisted ▸ read_end hd₂ hfin₂⟩)
  | none =>
    obtain ⟨pre₁, s₁, post₁, d₁, rfl, hd₁, hstep₁⟩ := exists_stuck hd₁
    rw [List.map_append, List.map_cons, eq_comm, List.map_eq_append_iff] at h
    obtain ⟨pre₂, ss₂', rfl, hpre, hpost⟩ := h
    obtain ⟨s₂, post₂, rfl, htoken, -⟩ := List.map_eq_cons_iff.1 hpost
    have hd := hadvance hpre.symm
    rw [hd₁, Option.map_some, eq_comm, Option.map_eq_some_iff] at hd
    obtain ⟨d₂, hd₂, hrel⟩ := hd
    have hstep₂ : d₂.step s₂.token (Position.ofOffset breaks₂ s₂.start).line = none := by
      rw [htoken]
      exact step_none_congr hrel.symm hstep₁
    have hlength : pre₂.length = pre₁.length := by simpa using congrArg List.length hpre
    refine .inr (.inl ⟨pre₁.length, s₁, s₂, d₁.expected (some s₁.token), ?_, ?_, htoken.symm,
      read_stuck hd₁ hstep₁, ?_⟩)
    · simp
    · simp [← hlength]
    · rw [read_stuck hd₂ hstep₂, htoken, expected_congr hrel]

end Draft

/-- The token of a stretch of source that is one. -/
def LexemeKind.token? : LexemeKind → Option Token
  | .token t => some t
  | _ => none

section

variable {s₁ s₂ : List Char} (hkinds : (Token.lex s₁).map Lexeme.kind = (Token.lex s₂).map Lexeme.kind)

include hkinds

theorem valid_of_kinds (hvalid : ∀ l ∈ Token.lex s₁, l.kind ≠ .invalid) : ∀ l ∈ Token.lex s₂, l.kind ≠ .invalid :=
  fun l hl h => by
    obtain ⟨l', hl', heq⟩ := List.mem_map.1 (hkinds ▸ List.mem_map_of_mem (f := Lexeme.kind) hl)
    exact hvalid l' hl' (heq.trans h)

theorem spots_of_kinds : (sourceSpots s₁).map Spot.token = (sourceSpots s₂).map Spot.token := by
  have hspots : ∀ s : List Char,
      (sourceSpots s).map Spot.token = ((Token.lex s).map Lexeme.kind).filterMap LexemeKind.token? := fun s => by
    rw [Token.lex, List.map_append, List.filterMap_append, List.filterMap_map, sourceSpots, List.map_filterMap]
    refine Eq.trans (List.filterMap_congr fun l _ => ?_) (List.append_nil _).symm
    rw [Function.comp_apply, Lexeme.spot?]
    cases l.kind <;> rfl
  rw [hspots, hspots, hkinds]

variable (hvalid : ∀ l ∈ Token.lex s₁, l.kind ≠ .invalid)

include hvalid

/-- **The same tokens parse alike**: to the same tree up to lines, or with the same message at the same token or at the
end of both inputs. -/
theorem parse_layout :
    (∃ p₁ p₂, parse s₁ = .ok p₁ ∧ parse s₂ = .ok p₂ ∧ p₁.relabel .oneLine = p₂.relabel .oneLine) ∨
    ∃ e₁ e₂ place, parse s₁ = .error e₁ ∧ parse s₂ = .error e₂ ∧ e₁.reason = e₂.reason ∧
      e₁.StandsAt s₁ place ∧ e₂.StandsAt s₂ place := by
  have hscan : ∀ {s : List Char}, (∀ l ∈ Token.lex s, l.kind ≠ .invalid) →
      spots (Token.scan s) = .ok (sourceSpots s) := fun h => spots_scan fun l hl => h l (List.mem_append_left _ hl)
  have hss₁ := hscan hvalid
  have hss₂ := hscan (valid_of_kinds hkinds hvalid)
  have htokens := spots_of_kinds hkinds
  rcases @Draft.read_congr (lineBreaks 0 s₁) (lineBreaks 0 s₂) (Text.byteLength s₁) (Text.byteLength s₂) _ _
      htokens with
    ⟨p₁, p₂, hread₁, hread₂, hp⟩ | ⟨i, a₁, a₂, listed, ha₁, ha₂, htoken, hread₁, hread₂⟩ | ⟨listed, hread₁, hread₂⟩
  · have hdeclares : p₁.Declares ↔ p₂.Declares := by
      rw [← p₁.declares_relabel (r := .oneLine), hp, p₂.declares_relabel]
    by_cases hp₁ : p₁.Declares
    · exact .inl ⟨p₁, p₂, (parse_of_read hss₁ hread₁ p₁).2 ⟨rfl, hp₁⟩,
        (parse_of_read hss₂ hread₂ p₂).2 ⟨rfl, hdeclares.1 hp₁⟩, hp⟩
    · obtain ⟨e₁, rfl⟩ := (declares_or_empty p₁).resolve_left hp₁
      obtain ⟨e₂, rfl⟩ := (declares_or_empty p₂).resolve_left (mt hdeclares.2 hp₁)
      have herr₁ := parse_of_read_empty hss₁ hread₁
      have herr₂ := parse_of_read_empty hss₂ hread₂
      -- A reading of no token ends in an error.
      cases ht₁ : sourceSpots s₁ with
      | nil => rw [ht₁] at hread₁; cases hread₁
      | cons a₁ as₁ =>
        rw [ht₁, List.map_cons, eq_comm] at htokens
        obtain ⟨a₂, as₂, ht₂, -, -⟩ := List.map_eq_cons_iff.1 htokens
        rw [ht₁] at herr₁
        rw [ht₂] at herr₂
        exact .inr ⟨_, _, _, herr₁, herr₂, rfl, .emptyLet (by rw [ht₁]; rfl), .emptyLet (by rw [ht₂]; rfl)⟩
  · obtain ⟨t, start₁, stop₁⟩ := a₁
    obtain ⟨t', start₂, stop₂⟩ := a₂
    obtain rfl : t = t' := htoken
    exact .inr ⟨_, _, some i, parse_of_read_error hss₁ hread₁, parse_of_read_error hss₂ hread₂, rfl,
      .unexpected ha₁ listed, .unexpected ha₂ listed⟩
  · exact .inr ⟨_, _, none, parse_of_read_error hss₁ hread₁, parse_of_read_error hss₂ hread₂, rfl,
      .endOfInput listed, .endOfInput listed⟩

/-- **Layout does not matter.**  Two sources with the same tokens, none of them an error, differ in blanks, line breaks
and comments only.  They parse to the same tree up to lines, or fail with the same message at the same token or at the
end of both.  The front end accepts both or neither: in the one case with the same code, the same type and the same
outline of the program, in the other with the same errors, each with the same names, up to lines. -/
theorem layout_does_not_matter (memory : Nat) :
    ((∃ p₁ p₂, parse s₁ = .ok p₁ ∧ parse s₂ = .ok p₂ ∧ p₁.relabel .oneLine = p₂.relabel .oneLine) ∨
      ∃ e₁ e₂ place, parse s₁ = .error e₁ ∧ parse s₂ = .error e₂ ∧ e₁.reason = e₂.reason ∧
        e₁.StandsAt s₁ place ∧ e₂.StandsAt s₂ place) ∧
    ((∃ c, compile s₁ memory = .ok c) ↔ ∃ c, compile s₂ memory = .ok c) ∧
    (∀ c₁ c₂, compile s₁ memory = .ok c₁ → compile s₂ memory = .ok c₂ →
      c₁.code.text = c₂.code.text ∧ c₁.type = c₂.type ∧ c₁.program.render = c₂.program.render) ∧
    ((∃ errors, compile s₁ memory = .error (.frontEnd errors)) ↔
      ∃ errors, compile s₂ memory = .error (.frontEnd errors)) ∧
    ∀ errors₁ errors₂, compile s₁ memory = .error (.frontEnd errors₁) →
      compile s₂ memory = .error (.frontEnd errors₂) →
      errors₁.map (Diagnostic.relabel .oneLine) = errors₂.map (Diagnostic.relabel .oneLine) := by
  have hname : Function.Injective Relabel.oneLine.name := fun _ _ h => h
  have hsame : ∀ x, Relabel.oneLine.name x = x := fun _ => rfl
  refine ⟨parse_layout hkinds hvalid, ?_⟩
  rcases parse_layout hkinds hvalid with ⟨p₁, p₂, hp₁, hp₂, hp⟩ | ⟨e₁, e₂, -, he₁, he₂, -⟩
  · have herrors :
        p₁.diagnostics.map (Diagnostic.relabel .oneLine) = p₂.diagnostics.map (Diagnostic.relabel .oneLine) := by
      rw [← Program.diagnostics_relabel hname, ← Program.diagnostics_relabel hname, hp]
    have hnil : p₁.diagnostics = [] ↔ p₂.diagnostics = [] := by
      rw [← List.map_eq_nil_iff (f := Diagnostic.relabel .oneLine), herrors, List.map_eq_nil_iff]
    have hresolve : p₁.resolve.relabel .oneLine = p₂.resolve.relabel .oneLine := by
      rw [← Program.resolve_relabel hname, ← Program.resolve_relabel hname, hp]
    rw [compile_of_parse hp₁, compile_of_parse hp₂]
    refine ⟨?_, fun c₁ c₂ hc₁ hc₂ => ?_, ?_, fun errors₁ errors₂ h₁ h₂ => ?_⟩
    · rw [Program.exists_compile_iff, Program.exists_compile_iff, hnil]
    · obtain ⟨-, hty₁, hprogram₁, hcode₁⟩ := Program.compile_ok_iff.1 hc₁
      obtain ⟨-, hty₂, hprogram₂, hcode₂⟩ := Program.compile_ok_iff.1 hc₂
      refine ⟨?_, ?_, ?_⟩
      · rw [hcode₁, hcode₂, ← Program.code_relabel memory hname, hresolve, Program.code_relabel memory hname]
      · have hty := Program.mainType_relabel hname p₁
        rw [hp, Program.mainType_relabel hname, hty₁, hty₂] at hty
        have heq := Except.ok.inj hty
        rw [Ty.relabel_same hsame, Ty.relabel_same hsame] at heq
        exact heq.symm
      · rw [hprogram₁, hprogram₂, ← Program.render_relabel hsame, hresolve, Program.render_relabel hsame]
    · simp only [Program.compile_error_iff, exists_eq_left, ne_eq, hnil]
    · rw [(Program.compile_error_iff.1 h₁).1, (Program.compile_error_iff.1 h₂).1, herrors]
  · rw [compile_of_parse_error he₁, compile_of_parse_error he₂]
    simp

end

/-- A function and its call on one line. -/
def narrowSource : List Char := "let fun f: int(x: int) x+1;in f(2);".toList

/-- The same on several lines and with comments. -/
def wideSource : List Char := "let // once\n  fun f:int (x:int)\n    x + 1; /* in */\nin\n  f ( 2 ) ;\n".toList

theorem narrowSource_wide : ∃ c₁ c₂, compile narrowSource 100 = .ok c₁ ∧ compile wideSource 100 = .ok c₂ ∧
    c₁.code.text = c₂.code.text ∧ c₁.program.render = c₂.program.render ∧ ∃ p₁ p₂, parse narrowSource = .ok p₁ ∧
      parse wideSource = .ok p₂ ∧ p₁.body.line = 1 ∧ p₂.body.line = 5 := by
  obtain ⟨-, haccept, hsame, -⟩ :=
    @layout_does_not_matter narrowSource wideSource (by decide +kernel) (by decide +kernel) 100
  have hcompiles : (compile narrowSource 100).toOption.any (fun _ => true) = true := by decide +kernel
  obtain ⟨c₁, hc₁, -⟩ := exists_of_any hcompiles
  obtain ⟨c₂, hc₂⟩ := haccept.1 ⟨c₁, hc₁⟩
  obtain ⟨htext, -, hrender⟩ := hsame c₁ c₂ hc₁ hc₂
  have hline₁ : (parse narrowSource).toOption.any (fun p => p.body.line = 1) = true := by decide +kernel
  have hline₂ : (parse wideSource).toOption.any (fun p => p.body.line = 5) = true := by decide +kernel
  obtain ⟨p₁, hp₁, h₁⟩ := exists_of_any hline₁
  obtain ⟨p₂, hp₂, h₂⟩ := exists_of_any hline₂
  exact ⟨c₁, c₂, hc₁, hc₂, htext, hrender, p₁, p₂, hp₁, hp₂, of_decide_eq_true h₁, of_decide_eq_true h₂⟩

end FoolLang
