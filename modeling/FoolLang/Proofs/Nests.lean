import FoolLang.Proofs.Words
import FoolLang.Tree.Outline
import Mathlib.Data.List.Nodup
/-!
# Nests — lines that lie in one another

An outline is a tree, of which each node has one line: a heading, and behind a colon what there is to say of the node.
The depth of a line tells which node it lies in, so the text of a tree, if nothing that is said in it has a line break,
can only be the text of that tree (`Nest.text_inj`).
-/
namespace FoolLang

open Text

/-- What goes on up to the first element of another kind stops at the same place in two equal lists. -/
theorem append_inj_of_stop {α : Type} {P : α → Prop} : ∀ {a b u v : List α}, (∀ x ∈ a, P x) → (∀ x ∈ b, P x) →
    (∀ x ∈ u.head?, ¬P x) → (∀ x ∈ v.head?, ¬P x) → a ++ u = b ++ v → a = b ∧ u = v
  | [], [], _, _, _, _, _, _, h => ⟨rfl, h⟩
  | [], y :: b, u, v, _, hb, hu, _, h => by
    have hy : y ∈ u.head? := by rw [show u = y :: (b ++ v) from h]; rfl
    exact absurd (hb y List.mem_cons_self) (hu y hy)
  | x :: a, [], u, v, ha, _, _, hv, h => by
    have hx : x ∈ v.head? := by rw [show v = x :: (a ++ u) from h.symm]; rfl
    exact absurd (ha x List.mem_cons_self) (hv x hx)
  | x :: a, y :: b, u, v, ha, hb, hu, hv, h => by
    obtain ⟨rfl, htail⟩ := List.cons.inj h
    obtain ⟨rfl, hrest⟩ := append_inj_of_stop (List.forall_mem_cons.1 ha).2 (List.forall_mem_cons.1 hb).2 hu hv htail
    exact ⟨rfl, hrest⟩

/-! ## Lines -/

/-- Nothing that ends a line. -/
def Inline (t : List Char) : Prop := '\n' ∉ t

instance (t : List Char) : Decidable (Inline t) := inferInstanceAs (Decidable ('\n' ∉ t))

theorem Inline.append {a b : List Char} (ha : Inline a) (hb : Inline b) : Inline (a ++ b) := fun h =>
  (List.mem_append.1 h).elim ha hb

theorem Inline.cons {c : Char} {t : List Char} (hc : c ≠ '\n') (ht : Inline t) : Inline (c :: t) := fun h =>
  (List.mem_cons.1 h).elim (fun h => hc h.symm) ht

namespace OutlineLine

/-- What stands on a line is not blank at the start, and on one line. -/
structure Legible (l : OutlineLine) : Prop where
  flush : l.label.head? ≠ some ' '
  flat : Inline l.label

theorem text_append_inj {l l' : OutlineLine} {rest rest' : List Char} (hl : l.Legible) (hl' : l'.Legible)
    (h : l.text ++ rest = l'.text ++ rest') : l = l' ∧ rest = rest' := by
  have hcut : ∀ (l : OutlineLine) (rest : List Char),
      l.text ++ rest = List.replicate (2 * l.depth) ' ' ++ (l.label ++ '\n' :: rest) := fun l rest => by
    simp [text]
  have hblank : ∀ n, ∀ c ∈ List.replicate n ' ', c = ' ' := fun n c hc => List.eq_of_mem_replicate hc
  have hhead : ∀ {l : OutlineLine} {rest : List Char}, l.Legible → ∀ c ∈ (l.label ++ '\n' :: rest).head?, ¬c = ' ' := by
    rintro ⟨d, label⟩ rest hl c hc rfl
    cases label with
    | nil => cases hc
    | cons c label => exact hl.flush hc
  have hbreak : ∀ {rest : List Char}, ∀ c ∈ ('\n' :: rest).head?, ¬c ≠ '\n' := fun c hc hne =>
    hne (Option.some.inj hc).symm
  rw [hcut, hcut] at h
  obtain ⟨hindent, h⟩ := append_inj_of_stop (hblank _) (hblank _) (hhead hl) (hhead hl') h
  obtain ⟨hlabel, hrest⟩ := append_inj_of_stop (P := fun c => c ≠ '\n') (fun c hc hn => hl.flat (hn ▸ hc))
    (fun c hc hn => hl'.flat (hn ▸ hc)) hbreak hbreak h
  have hdepth : l.depth = l'.depth := by
    have hlen := congrArg List.length hindent
    simp only [List.length_replicate] at hlen
    omega
  exact ⟨congrArg₂ OutlineLine.mk hdepth hlabel, (List.cons.inj hrest).2⟩

/-- **Lines can be told from their text.** -/
theorem text_inj : ∀ {ls ls' : List OutlineLine}, (∀ l ∈ ls, l.Legible) → (∀ l ∈ ls', l.Legible) →
    ls.flatMap text = ls'.flatMap text → ls = ls'
  | [], [], _, _, _ => rfl
  | [], l' :: _, _, _, h | l' :: _, [], _, _, h => by
    have hlen := congrArg List.length h
    simp [text] at hlen
  | l :: ls, l' :: ls', hl, hl', h => by
    obtain ⟨hl, hls⟩ := List.forall_mem_cons.1 hl
    obtain ⟨hl', hls'⟩ := List.forall_mem_cons.1 hl'
    obtain ⟨rfl, htail⟩ := text_append_inj hl hl' h
    rw [text_inj hls hls' htail]

end OutlineLine

/-! ## Headings -/

/-- What a line begins with. -/
inductive Heading
  | int | bool | empty | binary | not | cond | print | id | call | classCall | new | entry
  | var | func | param | field | method | cls | letIn | prog
  deriving DecidableEq

namespace Heading

def text : Heading → List Char
  | int => "Int".toList | bool => "Bool".toList | empty => "Empty".toList | binary => "Binary".toList
  | not => "Not".toList | cond => "If".toList | print => "Print".toList | id => "Id".toList
  | call => "Call".toList | classCall => "ClassCall".toList | new => "New".toList | entry => "STentry".toList
  | var => "Var".toList | func => "Fun".toList | param => "Par".toList | field => "Field".toList
  | method => "Method".toList | cls => "Class".toList | letIn => "ProgLetIn".toList | prog => "Prog".toList

def all : List Heading :=
  [int, bool, empty, binary, not, cond, print, id, call, classCall, new, entry,
    var, func, param, field, method, cls, letIn, prog]

theorem text_inj {h h' : Heading} (heq : h.text = h'.text) : h = h' := by
  have hall : ∀ h, h ∈ all := fun h => by cases h <;> decide
  exact List.inj_on_of_nodup_map (f := text) (l := all) (by decide) (hall h) (hall h') heq

theorem isLetter_of_mem_text {h : Heading} : ∀ c ∈ h.text, isLetter c = true :=
  List.all_eq_true.mp (by cases h <;> rfl)

/-- A heading and what is said behind it. -/
def label (h : Heading) (detail : Option (List Char)) : List Char :=
  h.text ++ (detail.map (": ".toList ++ ·)).getD []

theorem label_inj {h h' : Heading} {detail detail' : Option (List Char)} (heq : h.label detail = h'.label detail') :
    h = h' ∧ detail = detail' := by
  -- behind the letters of the heading comes a colon or nothing
  have hstop : ∀ detail : Option (List Char), ∀ c ∈ ((detail.map (": ".toList ++ ·)).getD []).head?,
      ¬isLetter c = true := fun detail c hc => by
    cases detail with
    | none => cases hc
    | some t => cases hc; decide
  obtain ⟨htext, hrest⟩ :=
    append_inj_of_stop isLetter_of_mem_text isLetter_of_mem_text (hstop detail) (hstop detail') heq
  refine ⟨text_inj htext, ?_⟩
  cases detail <;> cases detail' <;> simp_all

end Heading

/-! ## Trees of lines -/

/-- A line and those that lie in it. -/
inductive Nest
  | node (heading : Heading) (detail : Option (List Char)) (parts : List Nest)

def Nest.heading : Nest → Heading
  | .node h _ _ => h

mutual

/-- A nest as lines, from depth `d` on. -/
def Nest.lines (d : Nat) : Nest → List OutlineLine
  | .node h detail parts => ⟨d, h.label detail⟩ :: nestLines (d + 1) parts

def nestLines (d : Nat) : List Nest → List OutlineLine
  | [] => []
  | t :: ts => t.lines d ++ nestLines d ts

end

theorem Nest.lines_some {h : Heading} {s : List Char} (hs : h.text ++ ": ".toList = s) (d : Nat) (detail : List Char)
    (parts : List Nest) : (Nest.node h (some detail) parts).lines d = ⟨d, s ++ detail⟩ :: nestLines (d + 1) parts := by
  rw [← hs, List.append_assoc]
  rfl

theorem Nest.lines_none {h : Heading} {s : List Char} (hs : h.text = s) (d : Nat) (parts : List Nest) :
    (Nest.node h none parts).lines d = ⟨d, s⟩ :: nestLines (d + 1) parts := by
  rw [← hs]
  exact congrArg (OutlineLine.mk d · :: _) (List.append_nil _)

theorem nestLines_append (d : Nat) : ∀ ts us : List Nest, nestLines d (ts ++ us) = nestLines d ts ++ nestLines d us
  | [], _ => rfl
  | t :: ts, us => by rw [List.cons_append, nestLines, nestLines, nestLines_append d ts us, List.append_assoc]

mutual

/-- **The lines of a nest, and where they end, are known from their depths.** -/
theorem Nest.lines_append_inj : ∀ {t t' : Nest} {d : Nat} {rest rest' : List OutlineLine},
    (∀ l ∈ rest.head?, l.depth ≤ d) → (∀ l ∈ rest'.head?, l.depth ≤ d) →
    t.lines d ++ rest = t'.lines d ++ rest' → t = t' ∧ rest = rest'
  | .node h detail parts, .node h' detail' parts', d, rest, rest', hr, hr', heq => by
    obtain ⟨hline, hparts⟩ := List.cons.inj heq
    obtain ⟨rfl, rfl⟩ := Heading.label_inj (OutlineLine.mk.inj hline).2
    obtain ⟨rfl, rfl⟩ := nestLines_append_inj (fun l hl => Nat.lt_succ_of_le (hr l hl))
      (fun l hl => Nat.lt_succ_of_le (hr' l hl)) hparts
    exact ⟨rfl, rfl⟩

theorem nestLines_append_inj : ∀ {ts ts' : List Nest} {d : Nat} {rest rest' : List OutlineLine},
    (∀ l ∈ rest.head?, l.depth < d) → (∀ l ∈ rest'.head?, l.depth < d) →
    nestLines d ts ++ rest = nestLines d ts' ++ rest' → ts = ts' ∧ rest = rest'
  | [], [], _, _, _, _, _, heq => ⟨rfl, heq⟩
  | [], .node h detail parts :: ts', d, rest, rest', hr, _, heq => by
    have hline : ⟨d, h.label detail⟩ ∈ rest.head? := by rw [show rest = _ from heq]; rfl
    exact absurd (hr _ hline) (Nat.lt_irrefl d)
  | .node h detail parts :: ts, [], d, rest, rest', _, hr', heq => by
    have hline : ⟨d, h.label detail⟩ ∈ rest'.head? := by rw [show rest' = _ from heq.symm]; rfl
    exact absurd (hr' _ hline) (Nat.lt_irrefl d)
  | t :: ts, t' :: ts', d, rest, rest', hr, hr', heq => by
    have hhead : ∀ {us : List Nest} {rest : List OutlineLine}, (∀ l ∈ rest.head?, l.depth < d) →
        ∀ l ∈ (nestLines d us ++ rest).head?, l.depth ≤ d := fun {us rest} hr l hl => by
      match us with
      | [] => exact Nat.le_of_lt (hr l hl)
      | .node h detail parts :: us => cases hl; exact Nat.le_refl d
    rw [nestLines, nestLines, List.append_assoc, List.append_assoc] at heq
    obtain ⟨rfl, htail⟩ := Nest.lines_append_inj (hhead hr) (hhead hr') heq
    obtain ⟨rfl, rfl⟩ := nestLines_append_inj hr hr' htail
    exact ⟨rfl, rfl⟩

end

mutual

/-- Nothing that is said in a nest has a line break. -/
def Nest.Flat : Nest → Prop
  | .node _ detail parts => Inline (detail.getD []) ∧ allFlat parts

def allFlat : List Nest → Prop
  | [] => True
  | t :: ts => t.Flat ∧ allFlat ts

end

theorem allFlat_append : ∀ {ts us : List Nest}, allFlat ts → allFlat us → allFlat (ts ++ us)
  | [], _, _, hus => hus
  | _ :: _, _, hts, hus => ⟨hts.1, allFlat_append hts.2 hus⟩

theorem Heading.label_legible {h : Heading} {detail : Option (List Char)} (hd : Inline (detail.getD [])) (d : Nat) :
    OutlineLine.Legible ⟨d, h.label detail⟩ where
  flush := by
    have hfirst : ∃ c cs, h.text = c :: cs ∧ c ≠ ' ' := by cases h <;> exact ⟨_, _, rfl, by decide⟩
    obtain ⟨c, cs, htext, hc⟩ := hfirst
    simpa [label, htext] using hc
  flat := by
    have hword : Inline h.text := fun hm => by cases isLetter_of_mem_text _ hm
    cases detail with
    | none => exact hword.append (by decide)
    | some t => exact hword.append (.append (by decide) hd)

mutual

theorem Nest.Flat.legible : ∀ {t : Nest} {d : Nat}, t.Flat → ∀ l ∈ t.lines d, l.Legible
  | .node _ _ _, d, h => List.forall_mem_cons.2 ⟨Heading.label_legible h.1 d, legible_of_allFlat h.2⟩

theorem legible_of_allFlat : ∀ {ts : List Nest} {d : Nat}, allFlat ts → ∀ l ∈ nestLines d ts, l.Legible
  | [], _, _ => nofun
  | _ :: _, _, h => List.forall_mem_append.2 ⟨h.1.legible, legible_of_allFlat h.2⟩

end

/-- **A nest can be told from its text.** -/
theorem Nest.text_inj {t t' : Nest} (ht : t.Flat) (ht' : t'.Flat)
    (h : (t.lines 0).flatMap OutlineLine.text = (t'.lines 0).flatMap OutlineLine.text) : t = t' := by
  have hlines : t.lines 0 ++ [] = t'.lines 0 ++ [] :=
    congrArg (· ++ []) (OutlineLine.text_inj ht.legible ht'.legible h)
  have hend : ∀ l ∈ ([] : List OutlineLine).head?, l.depth ≤ 0 := nofun
  exact (Nest.lines_append_inj hend hend hlines).1

end FoolLang
