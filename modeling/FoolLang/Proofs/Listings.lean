import FoolLang.Proofs.Assembling
/-!
# Listings — statements written out and assembled

A listing is written with one statement on each line.  The words of that text spell the statements again, but for the
lines on which labels are mentioned (`Listing.exists_spells`), and nothing that is assembled depends on those.  So the
text assembles to the instructions of the listing, once its labels are told from mnemonics, defined once and resolved
(`Listing.WellFormed.assemble_text`).
-/
namespace FoolLang
namespace Assembly

open Text

namespace Statement

def text : Statement → List Char
  | define x => x.chars ++ [':']
  | push v => Instr.pushMnemonic ++ ' ' :: signedDecimal v.toInt
  | pushLabel x _ => Instr.pushMnemonic ++ ' ' :: x.chars
  | branch b x _ => b.mnemonic ++ ' ' :: x.chars
  | op o => o.mnemonic

def words : Statement → List Word
  | define x => [.label x, .colon]
  | push v => [.push, .num v.toInt]
  | pushLabel x _ => [.push, .label x]
  | branch b x _ => [.branch b, .label x]
  | op o => [.op o]

theorem reads {s : Statement} (hs : ∀ x, s.defines = some x ∨ s.mentions = some x → IsLabel x) {rest : List Char}
    {ws : List Word} (h : Reads rest ws) : Reads (s.text ++ '\n' :: rest) (s.words ++ ws) := by
  have hline : Reads ('\n' :: rest) ws := h.blank (by decide)
  have hstop : Stops ('\n' :: rest) := stops_cons (by decide)
  cases s with
  | define x =>
    have ht : (define x).text ++ '\n' :: rest = x.chars ++ ':' :: '\n' :: rest := List.append_assoc _ _ _
    rw [ht]
    exact hline.colon.label (hs x (.inl rfl)) (stops_cons (by decide))
  | push v =>
    exact (hline.number (fitsWord_toInt v) hstop).push
  | pushLabel x line =>
    exact (hline.label (hs x (.inr rfl)) hstop).push
  | branch b x line =>
    have ht : (branch b x line).text ++ '\n' :: rest = b.mnemonic ++ ' ' :: (x.chars ++ '\n' :: rest) :=
      List.append_assoc _ _ _
    rw [ht]
    exact (hline.label (hs x (.inr rfl)) hstop).branch b
  | op o => exact hline.op o hstop

/-! ## The lines of labels -/

/-- A statement without the line of its label. -/
def unplaced : Statement → Statement
  | pushLabel x _ => pushLabel x 0
  | branch b x _ => branch b x 0
  | s => s

@[simp] theorem isInstr_unplaced (s : Statement) : s.unplaced.isInstr = s.isInstr := by cases s <;> rfl

@[simp] theorem defines_unplaced (s : Statement) : s.unplaced.defines = s.defines := by cases s <;> rfl

@[simp] theorem mentions_unplaced (s : Statement) : s.unplaced.mentions = s.mentions := by cases s <;> rfl

@[simp] theorem instr?_unplaced (address : Ident → Nat) (s : Statement) :
    s.unplaced.instr? address = s.instr? address := by cases s <;> rfl

@[simp] theorem unplaced_eq_define {s : Statement} {x : Ident} : s.unplaced = .define x ↔ s = .define x := by
  cases s <;> simp [unplaced]

end Statement

namespace Listing

/-- A listing as text, a statement to a line. -/
def text (ss : Listing) : List Char := ss.flatMap fun s => s.text ++ ['\n']

variable {ss ss' : Listing}

theorem size_unplaced (ss : Listing) : size (ss.map Statement.unplaced) = ss.size := by
  simp [size, List.countP_map, Function.comp_def]

theorem definitions_unplaced (ss : Listing) : definitions (ss.map Statement.unplaced) = ss.definitions := by
  rw [definitions, definitions, List.filterMap_map]
  exact congrArg (List.filterMap · ss) (funext Statement.defines_unplaced)

theorem address_unplaced (ss : Listing) (x : Ident) : address (ss.map Statement.unplaced) x = ss.address x := by
  simp [address, List.takeWhile_map, Function.comp_def, size_unplaced]

theorem link_unplaced (ss : Listing) : link (ss.map Statement.unplaced) = ss.link := by
  have hsame : address (ss.map Statement.unplaced) = ss.address := funext ss.address_unplaced
  rw [link, link, hsame, List.filterMap_map]
  exact congrArg (List.filterMap · ss) (funext (Statement.instr?_unplaced ss.address))

/-- Statements are resolved whatever the lines of their labels are. -/
theorem Resolved.of_unplaced (h : ss'.map Statement.unplaced = ss.map Statement.unplaced) (hr : ss.Resolved) :
    ss'.Resolved := by
  have hother : ∀ s ∈ ss', ∃ r ∈ ss, r.unplaced = s.unplaced := fun s hs =>
    List.mem_map.1 (h ▸ List.mem_map_of_mem hs)
  obtain ⟨hdefined, hnear⟩ := resolved_iff.1 hr
  refine resolved_iff.2 ⟨fun s hs x hx => ?_, fun x line hs => ?_⟩
  · obtain ⟨r, hr, hrs⟩ := hother s hs
    rw [← definitions_unplaced, h, definitions_unplaced]
    exact hdefined r hr x (by rw [← r.mentions_unplaced, hrs, s.mentions_unplaced, hx])
  · obtain ⟨r, hr, hrs⟩ := hother _ hs
    rw [← address_unplaced, h, address_unplaced]
    cases r with
    | pushLabel y k =>
      obtain rfl : y = x := (Statement.pushLabel.inj hrs).1
      exact hnear y k hr
    | _ => cases hrs

end Listing

/-! ## Reading a listing back -/

theorem Statement.exists_spelled {s : Statement} {ws : List WordAt} {rest : List (Option Word)}
    (hw : ws.map WordAt.word = s.words.map some ++ rest) : ∃ s' : Statement, ∃ before after, ws = before ++ after ∧
      s'.Spelled before ∧ s'.unplaced = s.unplaced ∧ after.map WordAt.word = rest := by
  cases s with
  | op o =>
    obtain ⟨t, k, after, rfl, hafter⟩ := exists_word hw
    exact ⟨.op o, [_], after, rfl, .op o, rfl, hafter⟩
  | define x =>
    obtain ⟨t, k, t', k', after, rfl, hafter⟩ := exists_words hw
    exact ⟨.define x, _, after, rfl, .define x, rfl, hafter⟩
  | push v =>
    obtain ⟨t, k, t', k', after, rfl, hafter⟩ := exists_words hw
    exact ⟨.push v, _, after, rfl, .push v, rfl, hafter⟩
  | pushLabel x line =>
    obtain ⟨t, k, t', k', after, rfl, hafter⟩ := exists_words hw
    exact ⟨.pushLabel x k, _, after, rfl, .pushLabel x, rfl, hafter⟩
  | branch b x line =>
    obtain ⟨t, k, t', k', after, rfl, hafter⟩ := exists_words hw
    exact ⟨.branch b x k, _, after, rfl, .branch b x, rfl, hafter⟩

/-- **The words of a listing spell its statements**, with the lines on which these words stand. -/
theorem Listing.exists_spells : ∀ {ss : Listing} {ws : List WordAt},
    ws.map WordAt.word = (ss.flatMap Statement.words).map some →
    ∃ ss', Spells ws ss' ∧ ss'.map Statement.unplaced = ss.map Statement.unplaced
  | [], ws, hw => by
    obtain rfl := List.map_eq_nil_iff.1 hw
    exact ⟨[], .nil, rfl⟩
  | s :: ss, ws, hw => by
    rw [List.flatMap_cons, List.map_append] at hw
    obtain ⟨s', before, after, rfl, hs, hsame, hafter⟩ := Statement.exists_spelled hw
    obtain ⟨ss', hss, hsames⟩ := exists_spells hafter
    exact ⟨s' :: ss', .cons hs hss, by rw [List.map_cons, List.map_cons, hsame, hsames]⟩

theorem Listing.reads_text : ∀ {ss : Listing},
    (∀ s ∈ ss, ∀ x, s.defines = some x ∨ s.mentions = some x → IsLabel x) → Reads ss.text (ss.flatMap Statement.words)
  | [], _ => Reads.nil
  | s :: ss, h => by
    obtain ⟨hs, hss⟩ := List.forall_mem_cons.1 h
    simpa [Listing.text, List.append_assoc] using Statement.reads hs (reads_text hss)

/-- Listings whose text assembles. -/
structure Listing.WellFormed (ss : Listing) : Prop where
  labels : ∀ x ∈ ss.definitions, IsLabel x
  once : ss.definitions.Nodup
  resolved : ss.Resolved

/-- **The text of a listing assembles to the instructions of the listing.** -/
theorem Listing.WellFormed.assemble_text {ss : Listing} (h : ss.WellFormed) (limit : Nat) :
    assemble ss.text limit = if ss.size ≤ limit then .ok ss.link else .error (.codeTooLarge ss.size limit) := by
  obtain ⟨hdefined, -⟩ := Listing.resolved_iff.1 h.resolved
  have hlabels : ∀ s ∈ ss, ∀ x, s.defines = some x ∨ s.mentions = some x → IsLabel x := by
    rintro s hs x (hx | hx)
    · exact h.labels x (List.mem_filterMap.2 ⟨s, hs, hx⟩)
    · exact h.labels x (hdefined s hs x hx)
  obtain ⟨ss', hspells, hsame⟩ := exists_spells (Listing.reads_text hlabels ss.text.length 1 (Nat.le_refl _))
  have honce : ss'.definitions.Nodup := by
    rw [← definitions_unplaced, hsame, definitions_unplaced]
    exact h.once
  rw [assemble_of_resolved hspells honce (h.resolved.of_unplaced hsame), ← size_unplaced, hsame, size_unplaced,
    ← link_unplaced, hsame, link_unplaced]

end Assembly
end FoolLang
