import FoolLang.Proofs.Pieces
import FoolLang.Proofs.Rejects
import FoolLang.Proofs.RelabelCode
import FoolLang.Proofs.RelabelTypes
/-!
# Renaming — names do not matter

A source in which every name is replaced by another one, different ones by different ones, is read as the same program
under other names, so it is accepted or refused alike (`names_do_not_matter`).
-/
namespace FoolLang

/-! ## Reading -/

theorem valid_of_spots : ∀ {ls : List Lexeme} {ss : List Spot}, (∀ l ∈ ls, l.kind ≠ .eof) → spots ls = .ok ss →
    ∀ l ∈ ls, l.kind ≠ .invalid
  | [], _, _, _, _, h => (List.not_mem_nil h).elim
  | l :: ls, ss, heof, hss, x, hx => by
    obtain ⟨hl, heof⟩ := List.forall_mem_cons.1 heof
    rw [spots] at hss
    split at hss
    · rename_i t ht
      obtain ⟨ss', hss', -⟩ : ∃ ss', spots ls = .ok ss' ∧ _ := by
        cases h : spots ls with
        | error e => rw [h] at hss; cases hss
        | ok ss' => exact ⟨ss', rfl, trivial⟩
      rcases List.mem_cons.1 hx with rfl | hx
      · simp [ht]
      · exact valid_of_spots heof hss' x hx
    · cases hss
    · exact (hl ‹_›).elim

/-- A program is read from a source of tokens that makes the draft of it. -/
theorem parse_eq_ok_iff {source : List Char} {p : Program} : parse source = .ok p ↔
    (∀ l ∈ Token.scan source, l.kind ≠ .invalid) ∧ Draft.start.advance (linedTokens source) = some (.finished p) ∧
      p.Declares := by
  have heof : ∀ l ∈ Token.scan source, l.kind ≠ .eof := scan_ne_eof _ _ _
  by_cases hvalid : ∀ l ∈ Token.scan source, l.kind ≠ .invalid
  · obtain ⟨ss, hss, hmap⟩ := spots_lined source hvalid heof
    have hread : ∀ q, Draft.read (lineBreaks 0 source) (Text.byteLength source) 0 ss .start = .ok q ↔
        Draft.start.advance (linedTokens source) = some (.finished q) := fun q => by
      rw [read_iff, ← Draft.rest_iff_advance]
      exact iff_of_eq (congrArg (DraftRest q .start) hmap)
    rw [and_iff_right hvalid, ← hread]
    cases hr : Draft.read (lineBreaks 0 source) (Text.byteLength source) 0 ss .start with
    | error e => simp [parse_of_read_error hss hr]
    | ok q => rw [parse_of_read hss hr, Except.ok.injEq, eq_comm]
  · refine iff_of_false (fun h => ?_) fun h => hvalid h.1
    cases hss : spots (Token.scan source) with
    | error e =>
      unfold parse at h
      rw [hss] at h
      cases h
    | ok ss => exact hvalid (valid_of_spots heof hss)

theorem Program.declares_relabel {r : Relabel} (p : Program) : (p.relabel r).Declares ↔ p.Declares := by
  cases p <;> simp [Program.relabel, Program.Declares]

theorem Draft.relabel_finished {r : Relabel} {d : Draft} {p : Program} :
    d.relabel r = .finished p ↔ ∃ q, d = .finished q ∧ p = q.relabel r := by
  cases d <;> simp [Draft.relabel, eq_comm]

section

variable {source : List Char} {ρ : Ident → Ident}

/-- **Under other names the same program is read, up to names.** -/
theorem parse_rename (hρ : ∀ x ∈ names source, (ρ x).isProper = true) {p : Program} :
    parse (renameSource ρ source) = .ok p ↔ ∃ q, parse source = .ok q ∧ p = q.relabel ⟨id, ρ⟩ := by
  have hadvance := Draft.advance_relabel ⟨id, ρ⟩ (linedTokens source) .start
  rw [← linedTokens_rename hρ] at hadvance
  simp only [parse_eq_ok_iff, invalid_rename hρ]
  rw [show Draft.start = Draft.start.relabel ⟨id, ρ⟩ from rfl, hadvance]
  simp only [Option.map_eq_some_iff, Draft.relabel_finished]
  constructor
  · rintro ⟨hvalid, ⟨d, hd, q, rfl, rfl⟩, hdeclares⟩
    exact ⟨q, ⟨hvalid, hd, q.declares_relabel.1 hdeclares⟩, rfl⟩
  · rintro ⟨q, ⟨hvalid, hd, hdeclares⟩, rfl⟩
    exact ⟨hvalid, ⟨_, hd, q, rfl, rfl⟩, q.declares_relabel.2 hdeclares⟩

theorem mem_names_of_linedTokens {t : LinedToken} {x : Ident} (ht : t ∈ linedTokens source) (hx : t.token = .id x) :
    x ∈ names source := by
  obtain ⟨l, hl, hlt⟩ := List.mem_filterMap.1 ht
  refine List.mem_filterMap.2 ⟨l, hl, ?_⟩
  split at hlt
  · cases hlt
    simp_all [LexemeKind.name?]
  · cases hlt

/-- The tokens of a source are the same under names that agree on those in it. -/
theorem map_relabel_congr {r r' : Relabel} (hline : r.line = r'.line)
    (hname : ∀ x ∈ names source, r.name x = r'.name x) :
    (linedTokens source).map (LinedToken.relabel r) = (linedTokens source).map (LinedToken.relabel r') :=
  List.map_congr_left fun t ht => by
    obtain ⟨token, line⟩ := t
    cases token with
    | id x => simp [LinedToken.relabel, Token.relabel, hline, hname x (mem_names_of_linedTokens ht rfl)]
    | _ => simp [LinedToken.relabel, Token.relabel, hline]

theorem advance_of_parse {p : Program} (hp : parse source = .ok p) (r : Relabel) :
    Draft.start.advance ((linedTokens source).map (LinedToken.relabel r)) = some (.finished (p.relabel r)) := by
  rw [show Draft.start = Draft.start.relabel r from rfl, Draft.advance_relabel, (parse_eq_ok_iff.1 hp).2.1]
  rfl

/-- What a program is under other names is a matter of the names in its source. -/
theorem relabel_eq_of_parse {r r' : Relabel} {p : Program} (hp : parse source = .ok p) (hline : r.line = r'.line)
    (hname : ∀ x ∈ names source, r.name x = r'.name x) : p.relabel r = p.relabel r' := by
  have h := advance_of_parse hp r
  rw [map_relabel_congr hline hname, advance_of_parse hp r'] at h
  exact (Draft.finished.inj (Option.some.inj h)).symm

/-- A program stays when no name changes. -/
theorem relabel_id (p : Program) (hp : parse source = .ok p) : p.relabel ⟨id, id⟩ = p := by
  have hid : ∀ t : LinedToken, t.relabel ⟨id, id⟩ = t := fun t => by
    obtain ⟨token, line⟩ := t
    cases token <;> rfl
  have h := advance_of_parse hp ⟨id, id⟩
  rw [List.map_congr_left fun t _ => hid t, List.map_id', (parse_eq_ok_iff.1 hp).2.1] at h
  exact (Draft.finished.inj (Option.some.inj h)).symm

end

/-! ## Compiling -/

def Diagnostic.relabel (r : Relabel) : Diagnostic → Diagnostic
  | .name e => .name (e.relabel r)
  | .type e => .type (e.relabel r)

namespace Program

variable {r : Relabel} (hr : Function.Injective r.name)

include hr

theorem mainErrors_relabel (p : Program) : (p.relabel r).mainErrors = p.mainErrors.map (TypeError.relabel r) := by
  rw [mainErrors, mainErrors, mainType_relabel hr, ← reported_relabel]
  cases p.mainType <;> rfl

/-- **A program has the same errors under other names.** -/
theorem diagnostics_relabel (p : Program) : (p.relabel r).diagnostics = p.diagnostics.map (Diagnostic.relabel r) := by
  rw [diagnostics_eq, diagnostics_eq, nameErrors_relabel hr, resolve_relabel hr, classTable_relabel hr,
    typeErrors_relabel hr, mainErrors_relabel hr]
  simp [Diagnostic.relabel, Function.comp_def]

end Program

/-! ## Names that occur

A name occurs in a type or an error if replacing it changes the type or the error.
-/

section

variable {r s s' : Relabel}

mutual

/-- A type that keeps its names becomes the same under names that agree on those kept. -/
theorem Ty.relabel_congr (hs : ∀ x, r.name x = x → s.name x = s'.name x) :
    ∀ {t : Ty}, t.relabel r = t → t.relabel s = t.relabel s'
  | .int, _ | .bool, _ | .null, _ => rfl
  | .ref c, h => congrArg Ty.ref (hs c (Ty.ref.inj h))
  | .function _, h => congrArg Ty.function (Signature.relabel_congr hs (Ty.function.inj h))
  | .method _, h => congrArg Ty.method (Signature.relabel_congr hs (Ty.method.inj h))
  | .cls _, h => congrArg Ty.cls (Layout.relabel_congr hs (Ty.cls.inj h))

theorem Signature.relabel_congr (hs : ∀ x, r.name x = x → s.name x = s'.name x) :
    ∀ {σ : Signature}, σ.relabel r = σ → σ.relabel s = σ.relabel s'
  | ⟨_, _⟩, h =>
    congrArg₂ Signature.mk (relabelTypes_congr hs (Signature.mk.inj h).1) (Ty.relabel_congr hs (Signature.mk.inj h).2)

theorem Layout.relabel_congr (hs : ∀ x, r.name x = x → s.name x = s'.name x) :
    ∀ {l : Layout}, l.relabel r = l → l.relabel s = l.relabel s'
  | ⟨_, _⟩, h =>
    congrArg₂ Layout.mk (relabelTypes_congr hs (Layout.mk.inj h).1) (relabelSignatures_congr hs (Layout.mk.inj h).2)

theorem relabelTypes_congr (hs : ∀ x, r.name x = x → s.name x = s'.name x) :
    ∀ {ts : List Ty}, relabelTypes r ts = ts → relabelTypes s ts = relabelTypes s' ts
  | [], _ => rfl
  | _ :: _, h =>
    congrArg₂ List.cons (Ty.relabel_congr hs (List.cons.inj h).1) (relabelTypes_congr hs (List.cons.inj h).2)

theorem relabelSignatures_congr (hs : ∀ x, r.name x = x → s.name x = s'.name x) :
    ∀ {σs : List Signature}, relabelSignatures r σs = σs →
    relabelSignatures s σs = relabelSignatures s' σs
  | [], _ => rfl
  | _ :: _, h =>
    congrArg₂ List.cons (Signature.relabel_congr hs (List.cons.inj h).1)
      (relabelSignatures_congr hs (List.cons.inj h).2)

end

variable (hs : ∀ x, r.name x = x → s.name x = s'.name x)

include hs

theorem NameError.relabel_congr (hline : s.line = s'.line) {e : NameError} (h : e.relabel r = e) :
    e.relabel s = e.relabel s' := by
  cases e <;> simp_all [NameError.relabel]

theorem TypeError.relabel_congr (hline : s.line = s'.line) {e : TypeError} (h : e.relabel r = e) :
    e.relabel s = e.relabel s' := by
  cases e <;> simp_all [TypeError.relabel]

theorem Diagnostic.relabel_congr (hline : s.line = s'.line) {e : Diagnostic} (h : e.relabel r = e) :
    e.relabel s = e.relabel s' := by
  cases e with
  | name e => exact congrArg Diagnostic.name (NameError.relabel_congr hs hline (Diagnostic.name.inj h))
  | type e => exact congrArg Diagnostic.type (TypeError.relabel_congr hs hline (Diagnostic.type.inj h))

end

/-- These names for the given ones, and for the others names that cannot be written: none begins with a blank.  So the
names stay apart even where the images of the given ones are taken by others. -/
def spread (xs : List Ident) (ρ : Ident → Ident) (x : Ident) : Ident := if x ∈ xs then ρ x else ⟨' ' :: x.chars⟩

theorem spread_of_mem {xs : List Ident} {ρ : Ident → Ident} {x : Ident} (h : x ∈ xs) : spread xs ρ x = ρ x := if_pos h

/-- Only the given names may be kept. -/
theorem spread_of_kept {xs : List Ident} {ρ : Ident → Ident} {x : Ident} (h : spread xs id x = x) :
    spread xs ρ x = ρ x := by
  refine spread_of_mem ?_
  by_contra hx
  rw [spread, if_neg hx] at h
  have hlen := congrArg (·.chars.length) h
  simp at hlen

theorem spread_injective {xs : List Ident} {ρ : Ident → Ident} (hinj : ∀ x ∈ xs, ∀ y ∈ xs, ρ x = ρ y → x = y)
    (hproper : ∀ x ∈ xs, (ρ x).isProper = true) : Function.Injective (spread xs ρ) := by
  have hne : ∀ x ∈ xs, ∀ y : Ident, ρ x ≠ ⟨' ' :: y.chars⟩ := fun x hx y h => by
    obtain ⟨c, cs, hchars, hc, -⟩ := Ident.isProper_iff.1 (hproper x hx)
    rw [h] at hchars
    cases hchars
    cases hc
  intro x y h
  by_cases hx : x ∈ xs <;> by_cases hy : y ∈ xs <;> simp only [spread, hx, hy, if_true, if_false] at h
  · exact hinj x hx y hy h
  · exact (hne x hx y h).elim
  · exact (hne y hy x h.symm).elim
  · obtain ⟨x⟩ := x
    obtain ⟨y⟩ := y
    simpa using h

/-! ## Names do not matter -/

section

variable {source : List Char} {ρ : Ident → Ident} {p : Program} (hp : parse source = .ok p)
  (hinj : ∀ x ∈ names source, ∀ y ∈ names source, ρ x = ρ y → x = y)
  (hproper : ∀ x ∈ names source, (ρ x).isProper = true)

include hp

/-- Names apart that do with a program what the given ones do. -/
theorem relabel_spread : p.relabel ⟨id, ρ⟩ = p.relabel ⟨id, spread (names source) ρ⟩ :=
  relabel_eq_of_parse hp rfl fun _ hx => (spread_of_mem hx).symm

/-- Names apart that change the names outside a program only. -/
theorem relabel_spread_id : p.relabel ⟨id, spread (names source) id⟩ = p := by
  rw [← relabel_spread hp, relabel_id p hp]

omit hp in
theorem spread_id_injective : Function.Injective (spread (names source) id) :=
  spread_injective (fun _ _ _ _ h => h) fun _ hx => isProper_of_mem_names hx

include hinj hproper

/-- Replaced names are replaced in every error. -/
theorem diagnostics_rename : (p.relabel ⟨id, ρ⟩).diagnostics = p.diagnostics.map (Diagnostic.relabel ⟨id, ρ⟩) := by
  -- No name outside the source occurs in an error: where only such names change, the program and its errors stay.
  have hkept : p.diagnostics.map (Diagnostic.relabel ⟨id, spread (names source) id⟩) = p.diagnostics.map id := by
    rw [← Program.diagnostics_relabel spread_id_injective, relabel_spread_id hp, List.map_id]
  rw [relabel_spread hp, Program.diagnostics_relabel (spread_injective hinj hproper)]
  refine List.map_congr_left fun e he => ?_
  have hname : ∀ x, spread (names source) id x = x → spread (names source) ρ x = ρ x := fun _ => spread_of_kept
  exact @Diagnostic.relabel_congr ⟨id, spread (names source) id⟩ ⟨id, spread (names source) ρ⟩ ⟨id, ρ⟩ hname rfl e
    (List.map_inj_left.1 hkept e he)

/-- Replaced names are replaced in the type. -/
theorem mainType_rename {ty ty' : Ty} (h : p.mainType = .ok ty) (h' : (p.relabel ⟨id, ρ⟩).mainType = .ok ty') :
    ty' = ty.relabel ⟨id, ρ⟩ := by
  have hkept := p.mainType_relabel (r := ⟨id, spread (names source) id⟩) spread_id_injective
  rw [relabel_spread_id hp, h] at hkept
  rw [relabel_spread hp, Program.mainType_relabel (spread_injective hinj hproper), h] at h'
  rw [← Except.ok.inj h']
  have hname : ∀ x, spread (names source) id x = x → spread (names source) ρ x = ρ x := fun _ => spread_of_kept
  exact Ty.relabel_congr (r := ⟨id, spread (names source) id⟩) hname (Except.ok.inj hkept).symm

theorem code_rename (memory : Nat) : (p.relabel ⟨id, ρ⟩).resolve.code memory = p.resolve.code memory := by
  rw [relabel_spread hp, Program.resolve_relabel (spread_injective hinj hproper),
    Program.code_relabel memory (spread_injective hinj hproper)]

end

/-- **Names do not matter.**  Replace each name in a source by one that is no reserved word, different ones by different
ones.  The result is accepted exactly if the source is, with the same code and with the type of the source under the new
names, and it is refused by the front end exactly if the source is, with the same errors on the same lines under the new
names. -/
theorem names_do_not_matter {source : List Char} {ρ : Ident → Ident}
    (hinj : ∀ x ∈ names source, ∀ y ∈ names source, ρ x = ρ y → x = y)
    (hproper : ∀ x ∈ names source, (ρ x).isProper = true) (memory : Nat) :
    ((∃ c, compile (renameSource ρ source) memory = .ok c) ↔ ∃ c, compile source memory = .ok c) ∧
    (∀ c c', compile source memory = .ok c → compile (renameSource ρ source) memory = .ok c' →
      c'.code.text = c.code.text ∧ c'.type = c.type.relabel ⟨id, ρ⟩) ∧
    ∀ errors', compile (renameSource ρ source) memory = .error (.frontEnd errors') ↔
      ∃ errors, compile source memory = .error (.frontEnd errors) ∧
        errors' = errors.map (Diagnostic.relabel ⟨id, ρ⟩) := by
  cases hp : parse source with
  | error e =>
    cases hp' : parse (renameSource ρ source) with
    | error e' => simp [compile_of_parse_error hp, compile_of_parse_error hp']
    | ok p' =>
      obtain ⟨p, hparse, -⟩ := (parse_rename hproper).1 hp'
      cases hp.symm.trans hparse
  | ok p =>
    have hp' := (parse_rename hproper).2 ⟨p, hp, rfl⟩
    have hdiagnostics := diagnostics_rename hp hinj hproper
    rw [compile_of_parse hp, compile_of_parse hp']
    refine ⟨?_, fun c c' hc hc' => ?_, fun errors' => ?_⟩
    · rw [Program.exists_compile_iff, Program.exists_compile_iff, hdiagnostics, List.map_eq_nil_iff]
    · obtain ⟨-, hty, -, hcode⟩ := Program.compile_ok_iff.1 hc
      obtain ⟨-, hty', -, hcode'⟩ := Program.compile_ok_iff.1 hc'
      exact ⟨by rw [hcode, hcode', code_rename hp hinj hproper], mainType_rename hp hinj hproper hty hty'⟩
    · simp only [Program.compile_error_iff, hdiagnostics, ne_eq, List.map_eq_nil_iff]
      constructor
      · rintro ⟨rfl, hne⟩
        exact ⟨_, ⟨rfl, hne⟩, rfl⟩
      · rintro ⟨_, ⟨rfl, hne⟩, rfl⟩
        exact ⟨rfl, hne⟩

/-- A source whose main expression is an object, with the name of its class in a comment too. -/
def listSource : List Char := "let class A (n: A) { } // A\nin new A(null);".toList

/-- Whether values of a type are references to a class. -/
def Ty.isRef (c : Ident) : Ty → Bool
  | .ref x => decide (x = c)
  | _ => false

theorem Ty.eq_of_isRef {c : Ident} {ty : Ty} (h : ty.isRef c = true) : ty = .ref c := by
  cases ty with
  | ref x => rw [of_decide_eq_true h]
  | _ => cases h

/-- `A` for `n` and `n` for `A`. -/
def exchanged (x : Ident) : Ident :=
  if x = ⟨"A".toList⟩ then ⟨"n".toList⟩ else if x = ⟨"n".toList⟩ then ⟨"A".toList⟩ else x

theorem listSource_renamed :
    renameSource exchanged listSource = "let class n (A: n) { } // A\nin new n(null);".toList ∧
    ∃ c c', compile listSource 100 = .ok c ∧ compile (renameSource exchanged listSource) 100 = .ok c' ∧
      c'.code.text = c.code.text ∧ c.type = .ref ⟨"A".toList⟩ ∧ c'.type = .ref ⟨"n".toList⟩ := by
  obtain ⟨haccept, hsame, -⟩ := @names_do_not_matter listSource exchanged (by decide +kernel) (by decide +kernel) 100
  have hcompiles : (compile listSource 100).toOption.any (·.type.isRef ⟨"A".toList⟩) = true := by decide +kernel
  obtain ⟨c, hc, htype⟩ := exists_of_any hcompiles
  obtain ⟨c', hc'⟩ := haccept.2 ⟨c, hc⟩
  obtain ⟨htext, htype'⟩ := hsame c c' hc hc'
  have hA : c.type = .ref ⟨"A".toList⟩ := Ty.eq_of_isRef htype
  refine ⟨by decide +kernel, c, c', hc, hc', htext, hA, ?_⟩
  rw [htype', hA]
  rfl

end FoolLang
