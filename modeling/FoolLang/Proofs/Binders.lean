import FoolLang.Proofs.Drafts
import FoolLang.Proofs.Sentences
/-!
# Binders — how many names a program declares

Every name that is declared is written with three tokens or more, so a program declares a third as many names as its
source has bytes, at most (`three_mul_binders_le`).  Offsets and levels are counted up to this number.
-/
namespace FoolLang

mutual

/-- How many names a declaration declares, its own and those inside it. -/
def Dec.binders : Dec → Nat
  | .var _ _ _ _ => 1
  | .func _ _ _ params locals _ => 1 + params.length + localBinders locals

def localBinders : List Dec → Nat
  | [] => 0
  | d :: ds => d.binders + localBinders ds

end

def Method.binders (m : Method) : Nat := 1 + m.params.length + localBinders m.locals

def methodBinders : List Method → Nat
  | [] => 0
  | m :: ms => m.binders + methodBinders ms

def Class.binders (c : Class) : Nat := 1 + c.fields.length + methodBinders c.methods

def classBinders : List Class → Nat
  | [] => 0
  | c :: cs => c.binders + classBinders cs

def Program.binders (p : Program) : Nat := classBinders p.classes + localBinders p.decs

/-! ## Tokens -/

section

variable {α : Type} {P : List LinedToken → α → Prop} {ts : List LinedToken} {xs : List α} {k : Nat}

theorem More.length_le (h : More P ts xs) (hP : ∀ {ts x}, P ts x → k ≤ ts.length) : k * xs.length ≤ ts.length := by
  induction h with
  | nil => exact Nat.le_refl _
  | cons head tail ih =>
    have := hP head
    simp only [List.length_cons, List.length_append, Nat.mul_succ]
    omega

theorem Listed.length_le (h : Listed P ts xs) (hP : ∀ {ts x}, P ts x → k ≤ ts.length) : k * xs.length ≤ ts.length := by
  cases h with
  | nil => exact Nat.le_refl _
  | cons head tail =>
    have := hP head
    have := tail.length_le hP
    simp only [List.length_cons, List.length_append, Nat.mul_succ]
    omega

end

theorem BindingText.three_le {ts : List LinedToken} {b : Binding} (h : BindingText ts b) : 3 ≤ ts.length := by
  cases h with
  | mk type => cases type <;> simp

/-- A routine is written with three tokens for its name, three for each parameter, and those of its locals. -/
theorem RoutineText.exists_locals {dec : List LinedToken → Dec → Prop} {ts : List LinedToken} {m : Method}
    (h : RoutineText dec ts m) :
    ∃ us, Many dec us m.locals ∧ us.length + 3 * m.params.length + 3 ≤ ts.length := by
  cases h with
  | @mk _ _ _ _ bs ps ls es name params ds e heading parameters locals body =>
    have hname := heading.three_le
    have hparams := parameters.length_le BindingText.three_le
    cases locals with
    | none =>
      refine ⟨[], .nil, ?_⟩
      simp only [List.length_cons, List.length_append, List.length_map]
      omega
    | @some _ _ us _ decs nonempty =>
      refine ⟨us, decs, ?_⟩
      simp only [List.length_cons, List.length_append, List.length_map]
      omega

mutual

theorem DecText.three_mul_binders : ∀ (d : Dec) {ts : List LinedToken}, DecText ts d → 3 * d.binders ≤ ts.length
  | .var l x ty v, ts, h => by
    cases h with
    | var heading value =>
      have hname := heading.three_le
      simp only [Dec.binders, List.length_cons, List.length_append]
      omega
  | .func l x ret params locals body, ts, h => by
    obtain ⟨us, hus, hlen⟩ : ∃ us, Many DecText us locals ∧ us.length + 3 * params.length + 3 ≤ ts.length := by
      cases h with
      | func routine => exact routine.exists_locals
    have hlocals := Many.three_mul_localBinders locals hus
    rw [Dec.binders]
    omega

theorem Many.three_mul_localBinders : ∀ (ds : List Dec) {ts : List LinedToken}, Many DecText ts ds →
    3 * localBinders ds ≤ ts.length
  | [], _, _ => Nat.zero_le _
  | d :: ds, ts, h => by
    cases h with
    | cons head tail =>
      have hd := DecText.three_mul_binders d head
      have hds := Many.three_mul_localBinders ds tail
      rw [localBinders, List.length_append]
      omega

end

theorem RoutineText.three_mul_binders {ts : List LinedToken} {m : Method} (h : RoutineText DecText ts m) :
    3 * m.binders ≤ ts.length := by
  obtain ⟨us, hus, hlen⟩ := h.exists_locals
  have hlocals := Many.three_mul_localBinders _ hus
  rw [Method.binders]
  omega

theorem Many.three_mul_methodBinders {ts : List LinedToken} {ms : List Method} (h : Many (RoutineText DecText) ts ms) :
    3 * methodBinders ms ≤ ts.length := by
  induction h with
  | nil => exact Nat.zero_le _
  | cons head tail ih =>
    have := head.three_mul_binders
    rw [methodBinders, List.length_append]
    omega

theorem ClassText.three_mul_binders {ts : List LinedToken} {c : Class} (h : ClassText ts c) :
    3 * c.binders ≤ ts.length := by
  cases h with
  | mk parent state routines =>
    have hfields := state.length_le BindingText.three_le
    have hmethods := routines.three_mul_methodBinders
    simp only [Class.binders, List.length_cons, List.length_append, List.length_map]
    omega

theorem Many.three_mul_classBinders {ts : List LinedToken} {cs : List Class} (h : Many ClassText ts cs) :
    3 * classBinders cs ≤ ts.length := by
  induction h with
  | nil => exact Nat.zero_le _
  | cons head tail ih =>
    have := head.three_mul_binders
    rw [classBinders, List.length_append]
    omega

theorem Sentence.three_mul_binders {ts : List LinedToken} {p : Program} (h : Sentence ts p) :
    3 * p.binders ≤ ts.length := by
  cases h with
  | letIn classes decs body =>
    have hcs := classes.three_mul_classBinders
    have hds := Many.three_mul_localBinders _ decs
    simp only [Program.binders, Program.classes, Program.decs, List.length_cons, List.length_append]
    omega
  | expr body => exact Nat.zero_le _

/-- **A program declares a third as many names as its source has bytes, at most.** -/
theorem three_mul_binders_le {source : List Char} {p : Program} (h : parse source = .ok p) :
    3 * p.binders ≤ Text.byteLength source := by
  obtain ⟨ss, ts, hss, hlen, hts⟩ := exists_spots h
  calc 3 * p.binders ≤ ts.length := hts.three_mul_binders
    _ = ss.length := hlen
    _ ≤ (Token.scan source).length := length_spots hss
    _ ≤ source.length := Token.length_scanFrom source.length 0 source
    _ ≤ Text.byteLength source := Text.length_le_byteLength source

end FoolLang
