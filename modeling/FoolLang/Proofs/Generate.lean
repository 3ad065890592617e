import FoolLang.Compile
import FoolLang.Proofs.Drafts
import FoolLang.Proofs.Operands
import FoolLang.Proofs.Uses
/-!
# Generate — the code of parsed programs assembles

Whether a program was just parsed or has been resolved too, and whether or not there is something wrong with it, the
code it has, if it has any, is well formed (`generated_code_assembles`).  A program without errors always has code.
-/
namespace FoolLang

open Text Assembly

theorem offsetsFit_of_parse {source : List Char} {p : Program} (h : parse source = .ok p) :
    ∀ n ∈ p.nodes, n.OffsetsFit := fun n hn e he => by
  rw [(parse_sound h).1 n hn] at he
  cases he

namespace Program

variable {p : Program} {memory : Nat}

theorem declarationErrors_eq_nil (h : p.diagnostics = []) : p.declarationErrors = [] := by
  unfold diagnostics at h
  split at h
  · exact h
  · split at h
    · assumption
    · exact h
  · exact (List.append_eq_nil_iff.1 h).1

theorem nameErrors_eq_nil (h : p.diagnostics = []) : p.nameErrors = [] :=
  List.map_eq_nil_iff.1 (List.append_eq_nil_iff.1 (declarationErrors_eq_nil h)).1

theorem typeErrors_eq_nil (h : p.diagnostics = []) : p.resolve.typeErrors p.classTable = [] :=
  List.map_eq_nil_iff.1 (List.append_eq_nil_iff.1 (declarationErrors_eq_nil h)).2

/-- **A program without errors has code.** -/
theorem generate_of_diagnostics (h : p.diagnostics = []) : p.resolve.generate memory = .ok (p.resolve.code memory) := by
  obtain ⟨code, hc⟩ := (p.resolve.exists_generate_iff memory).2 (resolve_complete (nameErrors_eq_nil h))
  rw [hc, generate_eq_code hc]

theorem compile_cases (p : Program) (memory : Nat) : (∃ ty, p.diagnostics = [] ∧ p.mainType = .ok ty ∧
      p.compile memory = .ok ⟨p.resolve, ty, p.resolve.code memory⟩) ∨
    ∃ errors, p.compile memory = .error (.frontEnd errors) := by
  unfold compile
  split
  · rename_i ty hd ht
    rw [generate_of_diagnostics hd]
    exact .inl ⟨ty, hd, ht, rfl⟩
  · exact .inr ⟨_, rfl⟩

end Program

theorem compile_of_parse {source : List Char} {p : Program} (hp : parse source = .ok p) (memory : Nat) :
    compile source memory = p.compile memory := by
  rw [compile, hp]
  rfl

/-- A source that is no program is refused for that reason. -/
theorem compile_of_parse_error {source : List Char} {e : ParseError} (he : parse source = .error e) (memory : Nat) :
    compile source memory = .error (.parse e) := by
  rw [compile, he]
  rfl

/-- A source that compiles is a program without errors, and what it compiles to is known. -/
theorem compile_ok {source : List Char} {memory : Nat} {c : Compilation} (h : compile source memory = .ok c) :
    ∃ p ty, parse source = .ok p ∧ p.diagnostics = [] ∧ p.mainType = .ok ty ∧
      c = ⟨p.resolve, ty, p.resolve.code memory⟩ := by
  cases hp : parse source with
  | error e =>
    rw [compile_of_parse_error hp] at h
    cases h
  | ok p =>
    rw [compile_of_parse hp] at h
    rcases p.compile_cases memory with ⟨ty, hd, ht, hc⟩ | ⟨errors, hc⟩
    · rw [hc] at h
      cases h
      exact ⟨p, ty, rfl, hd, ht, rfl⟩
    · rw [hc] at h
      cases h

theorem compile_ne_code (source : List Char) (memory : Nat) (e : CodeError) :
    compile source memory ≠ .error (.code e) := by
  intro h
  cases hp : parse source with
  | error e =>
    rw [compile_of_parse_error hp] at h
    cases h
  | ok p =>
    rw [compile_of_parse hp] at h
    rcases p.compile_cases memory with ⟨ty, -, -, hc⟩ | ⟨errors, hc⟩
    · rw [hc] at h
      cases h
    · rw [hc] at h
      cases h

theorem wellFormed_compile {source : List Char} {memory : Nat} {c : Compilation} (hm : memory ≤ maxInt32)
    (h : compile source memory = .ok c) : c.code.WellFormed := by
  obtain ⟨p, ty, hp, -, -, rfl⟩ := compile_ok h
  exact wellFormed_program hm (Program.resolve_fits (offsetsFit_of_parse hp))

/-- The only thing an assembler can find wrong with a compiled source is its size. -/
theorem run_assemble_error {fuel : Nat} {source : List Char} {limits : Limits} {e : AsmError}
    (hm : limits.memory ≤ maxInt32) (h : run fuel source limits = .error (.execute (.assemble e))) :
    ∃ size limit, e = .codeTooLarge size limit := by
  unfold run at h
  cases hc : compile source limits.memory with
  | error e => rw [hc] at h; cases h
  | ok c =>
    rw [hc] at h
    change Except.mapError RunError.execute (execute fuel c.code.text limits) >>= _ = _ at h
    cases hx : execute fuel c.code.text limits with
    | ok r => rw [hx] at h; cases h
    | error x =>
      rw [hx] at h
      cases h
      unfold execute at hx
      cases ha : assemble c.code.text limits.code with
      | ok code =>
        rw [ha] at hx
        change Machine.start limits.memory >>= _ = _ at hx
        rw [Machine.start, if_pos hm] at hx
        cases hx
      | error x =>
        rw [ha] at hx
        cases hx
        rcases (wellFormed_compile hm hc).assemble_eq limits.code with ⟨he, -⟩ | ⟨l, -, he⟩
        · rw [ha] at he
          split at he
          · cases he
          · exact ⟨_, _, Except.error.inj he⟩
        · exact ⟨_, _, Except.error.inj (ha.symm.trans he)⟩

/-- **Generated code is well-formed assembly.**  A parsed program, resolved or not, has code exactly when every use in
it has its entries and every superclass is a class listed earlier.  The code defines each label once and operates on
32-bit numbers and defined labels; if it has fewer than 2³¹ instructions, it assembles under every limit that holds
them and is too large under every other one.  No source that passes the front end fails later but for its size. -/
theorem generated_code_assembles (source : List Char) :
    (∀ p, parse source = .ok p → ∀ q, q = p ∨ q = p.resolve → ∀ memory,
      ((∃ code, q.generate memory = .ok code) ↔ (∀ n ∈ q.nodes, n.Complete) ∧ q.SupersFirst) ∧
      ∀ code, memory ≤ maxInt32 → q.generate memory = .ok code → code.size ≤ maxInt32 →
        (∀ l, .define l ∈ code → code.count (.define l) = 1) ∧
        (∀ line ∈ code, line.Fits ∧ ∀ l, line.uses l = true → .define l ∈ code) ∧
        ∀ limit, assemble code.text limit =
          if code.size ≤ limit then .ok code.link else .error (.codeTooLarge code.size limit)) ∧
    (∀ memory e, compile source memory ≠ .error (.code e)) ∧
    ∀ fuel limits e, limits.memory ≤ maxInt32 → run fuel source limits = .error (.execute (.assemble e)) →
      ∃ size limit, e = .codeTooLarge size limit := by
  refine ⟨fun p hp q hq memory => ⟨q.exists_generate_iff memory, fun code hm hg hs => ?_⟩, compile_ne_code source,
    fun fuel limits e hm h => run_assemble_error hm h⟩
  have hfit : ∀ n ∈ q.nodes, n.OffsetsFit := by
    rcases hq with rfl | rfl
    · exact offsetsFit_of_parse hp
    · exact Program.resolve_fits (offsetsFit_of_parse hp)
  obtain rfl := Program.generate_eq_code hg
  have hw := wellFormed_program hm hfit
  refine ⟨fun l hl => ?_, fun line hl => ⟨hw.fits line hl, hw.closed line hl⟩, hw.assemble_text hs⟩
  exact Nat.le_antisymm (hw.definedOnce l) (List.count_pos_iff.2 hl)

theorem exists_of_any {ε α : Type} {x : Except ε α} {f : α → Bool} (h : x.toOption.any f = true) :
    ∃ a, x = .ok a ∧ f a = true := by
  cases x with
  | error e => cases h
  | ok a => exact ⟨a, rfl, h⟩

/-- A source whose code dispatches to a method and branches. -/
def pickSource : List Char :=
  ("let class A () { fun pick: int (b: bool) if b then { 1 } else { 2 }; } " ++
    "var a: A := new A(); in a.pick(1 == 2);").toList

theorem pickSource_assembles : ∃ code, ((parse pickSource).toOption.map Program.resolve).map (Program.code 100) =
    some code ∧ code.size = 59 ∧ assemble code.text 59 = .ok code.link ∧
      assemble code.text 58 = .error (.codeTooLarge 59 58) := by
  have hparsed : (parse pickSource).toOption.any (fun p => decide (p.resolve.unresolved = []) &&
      decide ((p.resolve.code 100).size = 59)) = true := by decide +kernel
  cases hp : parse pickSource with
  | error e =>
    rw [hp] at hparsed
    cases hparsed
  | ok p =>
    rw [hp] at hparsed
    obtain ⟨hn, hsize⟩ : p.resolve.unresolved = [] ∧ (p.resolve.code 100).size = 59 := by
      simpa [Except.toOption] using hparsed
    have hg : p.resolve.generate 100 = .ok (p.resolve.code 100) := by rw [Program.generate, hn]
    obtain ⟨-, -, ha⟩ := ((generated_code_assembles pickSource).1 p hp p.resolve (.inr rfl) 100).2 _ (by decide) hg
      (by rw [hsize]; decide)
    refine ⟨_, rfl, hsize, ?_, ?_⟩
    · rw [ha, hsize, if_pos (Nat.le_refl _)]
    · rw [ha, hsize, if_neg (by decide)]

end FoolLang
